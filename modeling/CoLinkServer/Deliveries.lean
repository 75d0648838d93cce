import CoLinkServer.SoloTasks

/-! What sending a task to a user comes to: a call on the core of the user, a call on the core that
forwards to the user, or an entry in the queue of the user's reverse connection. -/
namespace CoLinkServer

open Interleaving

namespace Deliveries

open TaskTraces

variable {M : Prost} {u v w : String} {task : Task} {h h' : List TaskEvent} {α β : Type}

/-- The text that has been read from a field of the record that `u` keeps of `v`. -/
def Recorded (u v field s : String) (h : List TaskEvent) : Prop :=
  ∃ bytes, ⟨.storageRead u ("_internal:" ++ ("known_users:" ++ v ++ field)),.ok bytes⟩ ∈ h ∧
    String.fromUTF8? ⟨bytes.toArray⟩ = some s

/-- The call goes to the core of `v`, or with the name of `v` to that of the user who forwards. -/
inductive Addressed (u v : String) (h : List TaskEvent) (m : Outgoing) : Prop
  | own (plain : m.forwardingTarget = none) (address : Recorded u v ":core_addr" m.coreAddr h)
  | forwarded {w : String} (named : m.forwardingTarget = some v)
      (forwarder : Recorded u v ":forwarding_user_id" w h)
      (address : Recorded u w ":core_addr" m.coreAddr h)

/-- The core that was called has accepted the task, or the task waits in the queue of the reverse
connection that has been opened for `v`. -/
inductive Delivered (u v : String) (task : Task) (h : List TaskEvent) : Prop
  | accepted {m : Outgoing} {id : ℕ} {past : List TaskEvent} (target : m.target = v)
      (whole : m.task = task) (addressed : Addressed u v h m)
      (answered : ⟨.response id,.ok ()⟩ :: ⟨.post m,id⟩ :: past <:+ h)
  | queued {past : List TaskEvent}
      (entered : ⟨.sendersSend u v task,.ok ()⟩ :: ⟨.sendersContains u v,true⟩ :: past <:+ h)

theorem Recorded.mono {field s : String} (hr : Recorded u v field s h) (hh : h <:+ h') :
    Recorded u v field s h' := by
  obtain ⟨bytes,hm,hs⟩ := hr
  exact ⟨bytes,hh.subset hm,hs⟩

theorem Addressed.mono {m : Outgoing} (ha : Addressed u v h m) (hh : h <:+ h') :
    Addressed u v h' m := by
  cases ha with
  | own plain address => exact .own plain (address.mono hh)
  | forwarded named forwarder address => exact .forwarded named (forwarder.mono hh) (address.mono hh)

theorem Delivered.mono (hd : Delivered u v task h) (hh : h <:+ h') : Delivered u v task h' := by
  cases hd with
  | accepted target whole addressed answered =>
    exact .accepted target whole (addressed.mono hh) (answered.trans hh)
  | queued entered => exact .queued (entered.trans hh)

abbrev Free : List TaskEvent → Prop := fun _ => True

theorem traced_suffix (p : Service α) (h : List TaskEvent) :
    p.Traced Free h fun _ h' => h <:+ h' :=
  Prog.Traced.of_stable (J := fun h' => h <:+ h')
    (fun e _ hj => ⟨trivial,hj.trans (List.suffix_cons e _)⟩) p List.suffix_rfl

theorem events_suffix {σ : Type} (f : Machine Op Res σ) (p : Service α) (x : σ) (h : List TaskEvent) :
    h <:+ (p.eval f x h).events := (traced_suffix p h).eval

theorem traced_skip {p : Service α} {g : α → Service β} {Q : β → List TaskEvent → Prop}
    (hg : ∀ a h', h <:+ h' → (g a).Traced Free h' (Prog.OnOk Q)) :
    (p >>= g).Traced Free h (Prog.OnOk Q) :=
  Prog.Traced.seq (traced_suffix p h).onOk fun a h' hh => hg a h' hh

theorem traced_next {o : Op} {g : Res o → Service β} {Q : Except Abort β → List TaskEvent → Prop}
    (hg : ∀ r, (g r).Traced Free (⟨o,r⟩ :: h) Q) : (perform o >>= g).Traced Free h Q :=
  fun r => ⟨trivial,hg r⟩

theorem traced_fromUtf8 {bytes : Bytes} {g : String → Service β} {Q : β → List TaskEvent → Prop}
    (hg : ∀ s, String.fromUTF8? ⟨bytes.toArray⟩ = some s → (g s).Traced Free h (Prog.OnOk Q)) :
    (TaskService.fromUtf8 bytes >>= g).Traced Free h (Prog.OnOk Q) := by
  cases hs : String.fromUTF8? ⟨bytes.toArray⟩ with
  | none =>
    rw [TaskService.fromUtf8,hs]
    trivial
  | some s =>
    rw [TaskService.fromUtf8,hs]
    exact hg s hs

theorem traced_field {field : String} {g : String → Service β} {Q : β → List TaskEvent → Prop}
    (hg : ∀ s h', h <:+ h' → Recorded u v field s h' → (g s).Traced Free h' (Prog.OnOk Q)) :
    (TaskService.internalStorageRead u ("known_users:" ++ v ++ field) >>= fun bytes =>
      TaskService.fromUtf8 bytes >>= g).Traced Free h (Prog.OnOk Q) := by
  intro r
  refine ⟨trivial,?_⟩
  cases r with
  | error e => trivial
  | ok bytes =>
    refine traced_fromUtf8 fun s hs => ?_
    exact hg s _ (List.suffix_cons _ _) ⟨bytes,List.mem_cons_self ..,hs⟩

theorem traced_queryUserRecord (v : String) (h : List TaskEvent) :
    (TaskService.queryUserRecord M u v).Traced Free h (Prog.OnOk fun record h' => h <:+ h' ∧
      Recorded u v ":core_addr" record.1 h' ∧
      ∀ w, record.2.2 = some w → Recorded u v ":forwarding_user_id" w h') := by
  refine traced_skip fun _ h₁ h₁' => ?_
  refine traced_field fun coreAddr h₂ h₂' haddr => ?_
  refine traced_field fun guestJwt h₃ h₃' _ => fun r => ⟨trivial,?_⟩
  have hh := ((h₁'.trans h₂').trans h₃').trans (List.suffix_cons ⟨.storageRead u _,r⟩ _)
  have haddr' := (haddr.mono h₃').mono (List.suffix_cons ⟨.storageRead u _,r⟩ _)
  cases r with
  | error e => exact ⟨hh,haddr',nofun⟩
  | ok bytes =>
    refine traced_fromUtf8 fun w hw => ⟨hh,haddr',fun w' he => ?_⟩
    obtain rfl := Option.some.inj he
    exact ⟨bytes,List.mem_cons_self ..,hw⟩

theorem traced_call {m : Outgoing} (hm : m.target = v ∧ m.task = task)
    (ha : Addressed u v h m) : (TaskService.call m).Traced Free h
      (Prog.OnOk fun _ h' => Delivered u v task h') := by
  refine traced_skip fun _ h₁ h₁' => traced_skip fun _ h₂ h₂' => ?_
  refine fun id => ⟨trivial,fun r => ⟨trivial,?_⟩⟩
  cases r with
  | error e => trivial
  | ok w =>
    have hpast := (List.suffix_cons ⟨.post m,id⟩ h₂).trans (List.suffix_cons ⟨.response id,.ok w⟩ _)
    exact .accepted hm.1 hm.2 (ha.mono ((h₁'.trans h₂').trans hpast)) List.suffix_rfl

theorem traced_sendInterCoreSyncTask (v : String) (task : Task) (h : List TaskEvent) :
    (TaskService.sendInterCoreSyncTask M u v task).Traced Free h
      (Prog.OnOk fun _ h' => Delivered u v task h') := by
  refine traced_next fun (connected : Bool) => ?_
  cases connected with
  | true =>
    refine fun r => ⟨trivial,?_⟩
    cases r with
    | error e => trivial
    | ok w => exact .queued List.suffix_rfl
  | false =>
    refine Prog.Traced.seq (traced_queryUserRecord v _) fun record h₁ hrecord => ?_
    obtain ⟨coreAddr,guestJwt,forwardingUserId⟩ := record
    obtain ⟨-,haddr,hforward⟩ := hrecord
    cases forwardingUserId with
    | none => exact traced_skip fun _ h₂ h₂' => traced_call ⟨rfl,rfl⟩ (.own rfl (haddr.mono h₂'))
    | some w =>
      have hw := hforward w rfl
      refine Prog.Traced.seq (traced_queryUserRecord w _) fun record h₂ hrecord => ?_
      refine traced_skip fun _ h₃ h₃' => traced_skip fun _ h₄ h₄' => ?_
      have hh := h₃'.trans h₄'
      exact traced_call ⟨rfl,rfl⟩ (.forwarded rfl (hw.mono (hrecord.1.trans hh)) (hrecord.2.1.mono hh))

theorem traced_sendWithReverseConnection (v : String) (task : Task) (h : List TaskEvent) :
    (TaskService.sendInterCoreSyncTaskWithReverseConnection M u v task).Traced Free h
      (Prog.OnOk fun _ h' => Delivered u v task h') := by
  refine Prog.Traced.seq (traced_queryUserRecord v _) fun record h₁ hrecord => ?_
  obtain ⟨coreAddr,guestJwt,forwardingUserId⟩ := record
  have haddr : Recorded u v ":core_addr" coreAddr h₁ := hrecord.2.1
  have hcall {h₂ : List TaskEvent} (hh : h₁ <:+ h₂) (reverse : Bool) :
      (TaskService.call ⟨v,coreAddr,guestJwt,none,reverse,task⟩).Traced Free h₂
        (Prog.OnOk fun _ h' => Delivered u v task h') :=
    traced_call ⟨rfl,rfl⟩ (.own rfl (haddr.mono hh))
  show (if forwardingUserId.isSome then _ else _ : Service Unit).Traced _ _ _
  split
  · exact traced_sendInterCoreSyncTask v task h₁
  · refine traced_skip fun _ h₂ h₂' => ?_
    refine Prog.Traced.bracket (A := fun h' => h₁ <:+ h') (B := fun _ h' => Delivered u v task h')
      (fun w => ⟨trivial,h₂'.trans (List.suffix_cons _ _)⟩) (fun h₃ h₃' => ?_)
      (fun h' => fun w => ⟨trivial,trivial⟩)
      (fun _ h' hd => fun w => ⟨trivial,hd.mono (List.suffix_cons _ _)⟩)
    refine traced_next fun (running : Bool) => ?_
    have hh := h₃'.trans (List.suffix_cons ⟨.handlerRunning u v,running⟩ h₃)
    cases running with
    | true => exact hcall hh false
    | false =>
      refine Prog.Traced.seq (hcall hh true) fun _ h₄ hd => fun w => ⟨trivial,?_⟩
      exact hd.mono (List.suffix_cons _ _)

end Deliveries
end CoLinkServer
