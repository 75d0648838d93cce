import CoLinkServer.TaskSystem

/-! Runs on given inputs. A simulation keeps what the operations of one core can see in lists,
performs each operation in one particular way and is shown to follow the system, so that a
run of it is a run of the system. -/
namespace CoLinkServer

open Interleaving

/-- Ideal signatures: the signature of a message is the key followed by the message. -/
def Primitives.ideal : Primitives where
  PublicKey := Bytes
  SecretKey := Bytes
  Signature := Bytes
  sha256 := id
  keccak256 := id
  publicKeyFromSlice := .ok
  publicKeySerialize := id
  signatureFromCompact := .ok
  signatureSerializeCompact := id
  signEcdsa := fun message key => key ++ message
  verifyEcdsa := fun message signature key =>
    if signature = key ++ message then .ok () else .error "signature failed verification"
  recoverableFromCompact := fun signature _ => .ok signature
  recoverEcdsa := fun _ _ => .error "recovery failed"

/-- Cores with ideal signatures, distinct keys and a clock that never repeats a reading. -/
def Deployment.ideal : Deployment where
  primitives := Primitives.ideal
  prost := Prost.selfDelimiting
  keys := fun i => ⟨[.ofNat i],[.ofNat i]⟩
  interCoreReverseMode := fun _ => false
  tick := fun before now => before < now

structure Sim where
  log : List ((String × String) × Bytes) := []
  clock : ℤ := 0
  imported : List String := []
  mutex : Option ℕ := none
  senders : List (String × String) := []
  sent : List Envelope := []
  outcomes : List (ℕ × Except Abort Unit) := []
  used : List String := []
  pending : List String := []
  ids : List String := []

instance (q : Request) (e : Envelope) : Decidable (Deployment.Carries q e) :=
  inferInstanceAs (Decidable (_ ∧ _ ∧ (_ → _)))

instance (k : String) : Decidable (Guarded k) := inferInstanceAs (Decidable (_ ∨ _))

namespace Sim

def read (m : Sim) (u k : String) : Option Bytes := m.log.lookup (u,k)

def write (m : Sim) (u k : String) (payload : Bytes) : Sim :=
  { m with log := ((u,k),payload) :: m.log, clock := m.clock + 1 }

/-- The world shows what the simulation has: exactly, except that the simulation may take more
ids for used. -/
structure Shows (w : World) (m : Sim) : Prop where
  read : ∀ u k, NoColon u → w.read 0 u k = m.read u k
  absent : ∀ u k, NoColon u → m.read u k = none →
    (w.cores 0).storage.keyNameToTimestamp (userIdKeyName u k) = none
  clock : (w.cores 0).clock = m.clock
  imported : ∀ u, u ∈ (w.cores 0).importedUsers ↔ u ∈ m.imported
  mutex : (w.cores 0).taskStorageMutex = m.mutex
  senders : ∀ x, x ∈ (w.cores 0).reverseSenders ↔ x ∈ m.senders
  sent : w.sent = m.sent
  outcomes : w.outcomes = m.outcomes
  used : ∀ id ∈ w.usedIds, id ∈ m.used
  pending : ∀ id ∈ w.pendingIds, id ∈ m.pending

theorem Shows.setCore {w : World} {m : Sim} (h : Shows w m) {c : Core} {z : List (String × String)}
    (hs : c.storage = (w.cores 0).storage) (hi : c.importedUsers = (w.cores 0).importedUsers)
    (hz : ∀ x, x ∈ c.reverseSenders ↔ x ∈ z) :
    Shows (w.setCore 0 c)
      { m with clock := c.clock, mutex := c.taskStorageMutex, senders := z } where
  read u k hu := by
    rw [World.read,World.setCore_cores,if_pos rfl,hs]
    exact h.read u k hu
  absent u k hu hk := by
    rw [World.setCore_cores,if_pos rfl,hs]
    exact h.absent u k hu hk
  clock := by simp
  imported u := by
    rw [World.setCore_cores,if_pos rfl,hi]
    exact h.imported u
  mutex := by simp
  senders x := by
    rw [World.setCore_cores,if_pos rfl]
    exact hz x
  sent := h.sent
  outcomes := h.outcomes
  used := h.used
  pending := h.pending

theorem Shows.write {w : World} {m : Sim} (h : Shows w m) {u k : String} (hu : NoColon u)
    (payload : Bytes) {c : Core} (hs : c.storage =
      (BasicStorage.update (w.cores 0).storage u k payload (m.clock + 1)).2)
    (hc : c.clock = m.clock + 1) (hi : c.importedUsers = (w.cores 0).importedUsers)
    (hm : c.taskStorageMutex = (w.cores 0).taskStorageMutex)
    (hz : c.reverseSenders = (w.cores 0).reverseSenders) :
    Shows (w.setCore 0 c) (m.write u k payload) where
  read u' k' hu' := by
    have hr := h.read u' k' hu'
    rw [World.read] at hr
    rw [World.read,World.setCore_cores,if_pos rfl,hs,Sim.read,Sim.write,List.lookup_cons]
    by_cases he : (u',k') = (u,k)
    · obtain ⟨rfl,rfl⟩ := Prod.mk.inj he
      simp [BasicStorage.value_update_self]
    · have hb : ((u',k') == (u,k)) = false := beq_eq_false_iff_ne.mpr he
      rw [BasicStorage.value_update_of_ne _ hu hu' (fun hh => he (by rw [hh.1,hh.2])),hr,hb]
      rfl
  absent u' k' hu' hk' := by
    rw [Sim.read,Sim.write,List.lookup_cons] at hk'
    have hne : (u',k') ≠ (u,k) := fun he => by
      rw [beq_iff_eq.mpr he] at hk'
      cases hk'
    rw [beq_eq_false_iff_ne.mpr hne] at hk'
    have hname : userIdKeyName u' k' ≠ userIdKeyName u k := fun he => by
      obtain ⟨rfl,rfl⟩ := (userIdKeyName_inj hu' hu).mp he
      exact hne rfl
    rw [World.setCore_cores,if_pos rfl,hs,(BasicStorage.update_maps _ _ _).2]
    exact (Function.update_of_ne hname _ _).trans (h.absent u' k' hu' hk')
  clock := by simp [hc,Sim.write]
  imported u' := by
    rw [World.setCore_cores,if_pos rfl,hi]
    exact h.imported u'
  mutex := by
    rw [World.setCore_cores,if_pos rfl,hm]
    exact h.mutex
  senders x := by
    rw [World.setCore_cores,if_pos rfl,hz]
    exact h.senders x
  sent := h.sent
  outcomes := h.outcomes
  used := h.used
  pending := h.pending

/-- The operations that the runs below consist of; the others end a simulation. -/
def step (m : Sim) (t : ℕ) (q : Request) : (o : Op) → Option (Res o × Sim)
  | .importedUsersContains u => some (decide (u ∈ m.imported),m)
  | .storageUpdate _ u k payload =>
    if NoColon u then
      some (.ok (keyPath u k (m.clock + 1)),{ m.write u k payload with
        pending := m.pending.filter fun id => k ≠ recordKey id })
    else none
  | .storageRead u k => if NoColon u then
      some ((m.read u k).elim (.error ("Key name not found: " ++ k)) .ok,m) else none
  | .storageContains u k => if NoColon u then some ((m.read u k).isSome,m) else none
  | .lock _ => if m.mutex = none then some ((),{ m with mutex := some t }) else none
  | .unlock _ => if m.mutex = some t then some ((),{ m with mutex := none }) else none
  | .utcNow => some ((m.clock + 1) / 1000000000,{ m with clock := m.clock + 1 })
  | .newUuid => match m.ids with
    | [] => none
    | id :: ids => if NoColon id ∧ id ∉ m.used then
        some (id,{ m with ids := ids, used := id :: m.used, pending := id :: m.pending })
      else none
  | .checkDecision d u task =>
    some (checkDecision Primitives.ideal Prost.selfDelimiting ((m.clock + 1) / 1000000000) d u task,
      { m with clock := m.clock + 1 })
  | .makeDecision a r reason _ task bs =>
    some (makeDecision Primitives.ideal Prost.selfDelimiting (Deployment.ideal.keys 0) a r reason
      task bs,m)
  | .sendersContains u v => some (decide ((u,v) ∈ m.senders),m)
  | .sendersInsert u v => some ((),{ m with senders := (u,v) :: m.senders })
  | .sendersSend u v task => if (u,v) ∈ m.senders then
      some (.ok (),{ m with sent := m.sent ++ [⟨v,none,false,task⟩] }) else none
  | .grpcConnect _ => some (.ok (),m)
  | .post o => some (m.sent.length,
      { m with sent := m.sent ++ [⟨o.target,o.forwardingTarget,o.reverse,o.task⟩] })
  | .response id => if (id,.ok ()) ∈ m.outcomes then some (.ok (),m) else none
  | .reply outcome => some ((),
      { m with outcomes := (q.message.map fun id => (id,outcome)).toList ++ m.outcomes })
  | _ => none

/-- The message that the request names, if any, has been sent and turns into it. -/
def delivers (m : Sim) (q : Request) : Bool :=
  match q.message with
  | none => true
  | some id => (m.sent[id]?).any fun e => decide (Deployment.Carries q e)

theorem exec_of_step {w : World} {m m' : Sim} {t : ℕ} {q : Request} {o : Op} {r : Res o}
    (hs : Shows w m) (hq : q.core = 0) (h : m.step t q o = some (r,m')) :
    ∃ x, Deployment.ideal.Exec t q w o r x ∧ Shows x m' := by
  have htick : Deployment.ideal.tick (w.cores q.core).clock (m.clock + 1) := by
    rw [hq,hs.clock]
    show m.clock < m.clock + 1
    omega
  cases o with
  | importedUsersContains u =>
    obtain ⟨rfl,rfl⟩ : decide (u ∈ m.imported) = r ∧ m = m' := by simpa [step] using h
    have hr : decide (u ∈ m.imported) = decide (u ∈ (w.cores q.core).importedUsers) := by
      rw [hq]
      exact decide_eq_decide.mpr (hs.imported u).symm
    refine ⟨w,?_,hs⟩
    rw [hr]
    exact .importedUsersContains u
  | storageUpdate site u k payload =>
    simp only [step,Option.ite_none_right_eq_some,Option.some.injEq,Prod.mk.injEq] at h
    obtain ⟨hu,rfl,rfl⟩ := h
    refine ⟨_,.storageUpdate site u k payload (m.clock + 1) _ htick (.inl rfl),?_⟩
    rw [hq]
    have hw := hs.write (c := { w.cores 0 with
        storage := (BasicStorage.update (w.cores 0).storage u k payload (m.clock + 1)).2
        clock := m.clock + 1 }) hu payload rfl rfl rfl rfl rfl
    refine { hw with pending := fun id hid => ?_ }
    have hid' : id ∈ w.pendingIds ∧ k ≠ recordKey id := by
      simpa [World.mem_stored_pendingIds] using hid
    simpa [hid'.2] using hs.pending id hid'.1
  | storageRead u k =>
    simp only [step,Option.ite_none_right_eq_some,Option.some.injEq,Prod.mk.injEq] at h
    obtain ⟨hu,rfl,rfl⟩ := h
    have hr : BasicStorage.readKeyName (w.cores q.core).storage u k =
        (m.read u k).elim (.error ("Key name not found: " ++ k)) .ok := by
      rw [hq]
      cases hp : m.read u k with
      | none => simp [BasicStorage.readKeyName,BasicStorage.readFromKeyNames,hs.absent u k hu hp]
      | some payload => exact BasicStorage.readKeyName_eq_ok.mpr ((hs.read u k hu).trans hp)
    refine ⟨w,?_,hs⟩
    rw [← hr]
    exact .storageRead u k
  | storageContains u k =>
    simp only [step,Option.ite_none_right_eq_some,Option.some.injEq,Prod.mk.injEq] at h
    obtain ⟨hu,rfl,rfl⟩ := h
    have hr : (BasicStorage.readFromKeyNames (w.cores q.core).storage u [k]).toBool =
        (m.read u k).isSome := by
      rw [BasicStorage.readFromKeyNames_isOk,hq]
      exact congrArg Option.isSome (hs.read u k hu)
    refine ⟨w,?_,hs⟩
    rw [← hr]
    exact .storageContains u k
  | lock s =>
    simp only [step,Option.ite_none_right_eq_some,Option.some.injEq,Prod.mk.injEq] at h
    obtain ⟨hm,-,rfl⟩ := h
    refine ⟨_,.lock s (by rw [hq,hs.mutex,hm]),?_⟩
    have hc := hs.setCore (c := { w.cores 0 with taskStorageMutex := some t }) rfl rfl hs.senders
    simpa [hq,hs.clock] using hc
  | unlock s =>
    simp only [step,Option.ite_none_right_eq_some,Option.some.injEq,Prod.mk.injEq] at h
    obtain ⟨hm,-,rfl⟩ := h
    refine ⟨_,.unlock s (by rw [hq,hs.mutex,hm]),?_⟩
    have hc := hs.setCore (c := { w.cores 0 with taskStorageMutex := none }) rfl rfl hs.senders
    simpa [hq,hs.clock] using hc
  | utcNow =>
    simp only [step,Option.some.injEq,Prod.mk.injEq] at h
    obtain ⟨rfl,rfl⟩ := h
    refine ⟨_,.utcNow (m.clock + 1) htick,?_⟩
    have hc := hs.setCore (c := { w.cores 0 with clock := m.clock + 1 }) rfl rfl hs.senders
    simpa [hq,hs.mutex] using hc
  | newUuid =>
    cases hids : m.ids with
    | nil => simp [step,hids] at h
    | cons id ids =>
      simp only [step,hids,Option.ite_none_right_eq_some,Option.some.injEq,Prod.mk.injEq] at h
      obtain ⟨⟨hid,hfresh⟩,rfl,rfl⟩ := h
      refine ⟨_,.newUuid id hid fun hm => hfresh (hs.used id hm),?_⟩
      refine { hs with used := fun i hi => ?_, pending := fun i hi => ?_ }
      · have hi' : i = id ∨ i ∈ w.usedIds := by simpa using hi
        rcases hi' with rfl | hi'
        · simp
        · simp [hs.used i hi']
      · have hi' : i = id ∨ i ∈ w.pendingIds := by simpa using hi
        rcases hi' with rfl | hi'
        · simp
        · simp [hs.pending i hi']
  | checkDecision d u task =>
    simp only [step,Option.some.injEq,Prod.mk.injEq] at h
    obtain ⟨rfl,rfl⟩ := h
    refine ⟨_,.checkDecision d u task (m.clock + 1) htick,?_⟩
    have hc := hs.setCore (c := { w.cores 0 with clock := m.clock + 1 }) rfl rfl hs.senders
    simpa [hq,hs.mutex] using hc
  | makeDecision a r' reason u task bs =>
    simp only [step,Option.some.injEq,Prod.mk.injEq] at h
    obtain ⟨rfl,rfl⟩ := h
    refine ⟨w,?_,hs⟩
    have he := Deployment.Exec.makeDecision (D := Deployment.ideal) (t := t) (q := q) (w := w)
      a r' reason u task bs
    rwa [hq] at he
  | sendersContains u v =>
    obtain ⟨rfl,rfl⟩ : decide ((u,v) ∈ m.senders) = r ∧ m = m' := by simpa [step] using h
    have hr : decide ((u,v) ∈ m.senders) = decide ((u,v) ∈ (w.cores q.core).reverseSenders) := by
      rw [hq]
      exact decide_eq_decide.mpr (hs.senders (u,v)).symm
    refine ⟨w,?_,hs⟩
    rw [hr]
    exact .sendersContains u v
  | sendersInsert u v =>
    simp only [step,Option.some.injEq,Prod.mk.injEq] at h
    obtain ⟨-,rfl⟩ := h
    refine ⟨_,.sendersInsert u v,?_⟩
    have hc := hs.setCore (c := { w.cores 0 with
        reverseSenders := insert (u,v) (w.cores 0).reverseSenders }) (z := (u,v) :: m.senders)
      rfl rfl (fun x => by simp [hs.senders x])
    simpa [hq,hs.mutex,hs.clock] using hc
  | sendersSend u v task =>
    simp only [step,Option.ite_none_right_eq_some,Option.some.injEq,Prod.mk.injEq] at h
    obtain ⟨hv,rfl,rfl⟩ := h
    refine ⟨_,.sendersSend u v task ?_,{ hs with sent := by rw [World.send_sent,hs.sent] }⟩
    rw [hq]
    exact (hs.senders (u,v)).mpr hv
  | grpcConnect address =>
    simp only [step,Option.some.injEq,Prod.mk.injEq] at h
    obtain ⟨rfl,rfl⟩ := h
    exact ⟨w,.grpcConnect address _,hs⟩
  | post o =>
    simp only [step,Option.some.injEq,Prod.mk.injEq] at h
    obtain ⟨rfl,rfl⟩ := h
    rw [← hs.sent]
    exact ⟨_,.post o,{ hs with sent := by rw [World.send_sent,hs.sent] }⟩
  | response id =>
    simp only [step,Option.ite_none_right_eq_some,Option.some.injEq,Prod.mk.injEq] at h
    obtain ⟨ho,rfl,rfl⟩ := h
    exact ⟨w,.response id _ fun _ => by rw [hs.outcomes]; exact ho,hs⟩
  | reply outcome =>
    simp only [step,Option.some.injEq,Prod.mk.injEq] at h
    obtain ⟨-,rfl⟩ := h
    refine ⟨_,.reply outcome,?_⟩
    exact { hs with outcomes := by rw [World.reply,hs.outcomes] }
  | _ => simp [step] at h

end Sim

structure Play where
  sim : Sim := {}
  threads : ℕ → Option (Request × Service Unit) := fun _ => none
  history : List (Action Op Res Request) := []

/-- `run t n` lets thread `t` perform `n` operations. -/
inductive Move
  | importUser (userId : String)
  | client (userId keyName : String) (payload : Bytes)
  | start (t : ℕ) (q : Request)
  | run (t n : ℕ)

namespace Play

def perform (p : Play) (t : ℕ) : Option Play :=
  match p.threads t with
  | some (q,.call o k) =>
    if q.core = 0 then (p.sim.step t q o).map fun (r,m) =>
      ⟨m,Function.update p.threads t (some (q,k r)),.op t q o r :: p.history⟩
    else none
  | _ => none

def runFor (t : ℕ) : ℕ → Play → Option Play
  | 0,p => some p
  | n+1,p => (p.perform t).bind (runFor t n)

def move (p : Play) : Move → Option Play
  | .importUser u => if NoColon u then
      some { p with
        sim := { p.sim with imported := u :: p.sim.imported }
        history := .env :: p.history }
    else none
  | .client u k payload => if NoColon u ∧ ¬ Guarded k then
      some { p with
        sim := p.sim.write u k payload
        history := .env :: p.history }
    else none
  | .start t q =>
    if (p.threads t).isNone ∧ q.call.taskId ∉ p.sim.pending ∧ p.sim.delivers q then
      some {
        sim := { p.sim with used := q.call.taskId :: p.sim.used }
        threads := Function.update p.threads t (some (q,Deployment.ideal.serve q))
        history := .start t q :: p.history }
    else none
  | .run t n => p.runFor t n

def moves (ms : List Move) (p : Play) : Option Play := ms.foldlM move p

structure Follows (c : Config Op Res Abort Request Unit World) (p : Play) : Prop where
  shows : p.sim.Shows c.state.shared
  threads : c.threads = p.threads
  history : c.state.history = p.history

variable {c : Config Op Res Abort Request Unit World} {p p' : Play}

theorem Follows.perform (hf : Follows c p) {t : ℕ} (h : p.perform t = some p') :
    ∃ c', Deployment.ideal.system.Steps c c' ∧ Follows c' p' := by
  unfold Play.perform at h
  split at h
  · next q o k ht =>
    simp only [Option.ite_none_right_eq_some,Option.map_eq_some_iff] at h
    obtain ⟨hq,⟨r,m⟩,hm,rfl⟩ := h
    obtain ⟨x,hx,hs⟩ := Sim.exec_of_step hf.shows hq hm
    have ht' : c.threads t = some (q,.call o k) := hf.threads ▸ ht
    refine ⟨_,.single ⟨_,.op ht' hx⟩,hs,?_,?_⟩
    · simp only [hf.threads]
    · simp only [State.push_history,hf.history]
  · cases h

theorem Follows.runFor (hf : Follows c p) {t n : ℕ} (h : p.runFor t n = some p') :
    ∃ c', Deployment.ideal.system.Steps c c' ∧ Follows c' p' := by
  induction n generalizing c p with
  | zero =>
    obtain rfl : p = p' := by simpa [Play.runFor] using h
    exact ⟨c,.refl,hf⟩
  | succ n ih =>
    obtain ⟨p₁,hp,h⟩ := Option.bind_eq_some_iff.mp h
    obtain ⟨c₁,hc₁,hf₁⟩ := hf.perform hp
    obtain ⟨c₂,hc₂,hf₂⟩ := ih hf₁ h
    exact ⟨c₂,hc₁.trans hc₂,hf₂⟩

theorem Follows.move (hf : Follows c p) {m : Move} (h : p.move m = some p') :
    ∃ c', Deployment.ideal.system.Steps c c' ∧ Follows c' p' := by
  cases m with
  | importUser u =>
    simp only [Play.move,Option.ite_none_right_eq_some,Option.some.injEq] at h
    obtain ⟨hu,rfl⟩ := h
    have hs := hf.shows
    refine ⟨_,.single ⟨_,.env (.importUser 0 u hu)⟩,?_,hf.threads,?_⟩
    · refine { hs with
        read := fun u' k hu' => ?_, absent := fun u' k hu' hk => ?_, clock := ?_,
        imported := fun x => ?_, mutex := ?_, senders := fun x => ?_ }
      · have hr := hs.read u' k hu'
        simpa [World.read,Sim.read] using hr
      · simpa using hs.absent u' k hu' hk
      · simpa using hs.clock
      · simp [hs.imported x]
      · simpa using hs.mutex
      · simpa using hs.senders x
    · simp [hf.history]
  | client u k payload =>
    simp only [Play.move,Option.ite_none_right_eq_some,Option.some.injEq] at h
    obtain ⟨⟨hu,hk⟩,rfl⟩ := h
    have htick : Deployment.ideal.tick (c.state.shared.cores 0).clock (p.sim.clock + 1) := by
      rw [hf.shows.clock]
      show p.sim.clock < p.sim.clock + 1
      omega
    refine ⟨_,.single ⟨_,.env (.storage 0 (.update u k payload) _ hu hk htick)⟩,?_,hf.threads,?_⟩
    · exact hf.shows.write hu payload rfl rfl rfl rfl rfl
    · simp [hf.history]
  | start t q =>
    simp only [Play.move,Option.ite_none_right_eq_some,Option.some.injEq] at h
    obtain ⟨⟨ht,hp,hd⟩,rfl⟩ := h
    have hs := hf.shows
    have hfresh : c.threads t = none := by
      rw [hf.threads]
      exact Option.isNone_iff_eq_none.mp ht
    have hbegin : Deployment.start q c.state.shared
        { c.state.shared with usedIds := insert q.call.taskId c.state.shared.usedIds } := by
      refine ⟨fun hm => hp (hs.pending _ hm),fun id hid => ?_,rfl⟩
      simp only [Sim.delivers,hid,Option.any_eq_true,decide_eq_true_eq] at hd
      rw [hs.sent]
      exact hd
    refine ⟨_,.single ⟨_,.start hfresh hbegin⟩,?_,?_,?_⟩
    · refine { hs with used := fun id hi => ?_ }
      have hi' : id = q.call.taskId ∨ id ∈ c.state.shared.usedIds := by simpa using hi
      rcases hi' with rfl | hi'
      · simp
      · simp [hs.used id hi']
    · simp only [hf.threads]
      rfl
    · simp [hf.history]
  | run t n => exact hf.runFor h

theorem Follows.moves (hf : Follows c p) {ms : List Move} (h : p.moves ms = some p') :
    ∃ c', Deployment.ideal.system.Steps c c' ∧ Follows c' p' := by
  induction ms generalizing c p with
  | nil =>
    obtain rfl : p = p' := by simpa [Play.moves] using h
    exact ⟨c,.refl,hf⟩
  | cons m ms ih =>
    rw [Play.moves,List.foldlM_cons] at h
    obtain ⟨p₁,hp,h⟩ := Option.bind_eq_some_iff.mp h
    obtain ⟨c₁,hc₁,hf₁⟩ := hf.move hp
    obtain ⟨c₂,hc₂,hf₂⟩ := ih hf₁ h
    exact ⟨c₂,hc₁.trans hc₂,hf₂⟩

theorem run {ids : List String} {ms : List Move} {check : Play → Bool}
    (h : (Play.moves ms { sim := { ids := ids } }).any check) :
    ∃ c p, Deployment.ideal.Reach c ∧ Follows c p ∧ check p := by
  obtain ⟨p,hp,hcheck⟩ := (Option.any_eq_true _ _).mp h
  let core : Core := ⟨BasicStorage.empty,0,∅,by simp,none,none,∅,∅⟩
  let w : World := ⟨fun _ => core,[],[],∅,∅⟩
  have hw : Deployment.Init w := ⟨fun _ => ⟨rfl,rfl,rfl,rfl,rfl⟩,rfl,rfl,rfl,rfl⟩
  have hf : Follows ⟨⟨w,[]⟩,fun _ => none⟩ { sim := { ids := ids } } := by
    refine ⟨⟨fun u k _ => rfl,fun u k _ _ => rfl,rfl,by simp [w,core],rfl,by simp [w,core],rfl,rfl,by simp [w],
      by simp [w]⟩,rfl,rfl⟩
  obtain ⟨c,hc,hf⟩ := hf.moves hp
  exact ⟨c,p,System.Reach.steps (.init hw) hc,hf,hcheck⟩

theorem run_both {ids : List String} {ms ms' : List Move} {check : Play → Play → Bool}
    (h : (Play.moves ms { sim := { ids := ids } }).any fun p => (p.moves ms').any (check p)) :
    ∃ c p c' p', Deployment.ideal.Reach c ∧ Deployment.ideal.system.Steps c c' ∧ Follows c p ∧
      Follows c' p' ∧ check p p' := by
  obtain ⟨c,p,hc,hf,hp⟩ := run h
  obtain ⟨p',hp',hcheck⟩ := (Option.any_eq_true _ _).mp hp
  obtain ⟨c',hs,hf'⟩ := hf.moves hp'
  exact ⟨c,p,c',p',hc,hs,hf,hf',hcheck⟩

/-- A check of the newest entry of the record, given those before it. -/
def newest (check : Action Op Res Request → List (Action Op Res Request) → Bool) (p : Play) : Bool :=
  match p.history with
  | a :: past => check a past
  | [] => false

theorem run_step {ids : List String} {ms : List Move}
    {check : Action Op Res Request → List (Action Op Res Request) → Bool}
    (h : (Play.moves ms { sim := { ids := ids } }).any (newest check)) :
    ∃ c a c', Deployment.ideal.Reach c ∧ Deployment.ideal.system.Step c a c' ∧
      check a c.state.history := by
  obtain ⟨c',p,hc',hf,hp⟩ := run h
  cases hh : p.history with
  | nil => simp [newest,hh] at hp
  | cons a past =>
    rw [newest,hh] at hp
    have hall : a :: past <:+ c'.state.history := by rw [hf.history,hh]
    obtain ⟨c,c₁,hc,rfl,hs,-⟩ := hc'.before hall
    exact ⟨c,a,c₁,hc,hs,hp⟩

def allEnded (p : Play) : Bool := p.history.all fun
  | .start t _ => match p.threads t with
    | some (_,.call _ _) => false
    | _ => true
  | _ => true

theorem Follows.ended (hf : Follows c p) (hc : Deployment.ideal.Reach c) (h : p.allEnded) {t : ℕ}
    {q : Request} {p' : Service Unit} (ht : c.threads t = some (q,p')) : ∃ r, p' = .ofExcept r := by
  have hm := ((hc.history_thread t).2 q p' ht).1
  have hall := List.all_eq_true.mp h _ (hf.history ▸ hm)
  simp only [← hf.threads,ht] at hall
  cases p' with
  | ret a => exact ⟨.ok a,rfl⟩
  | fail e => exact ⟨.error e,rfl⟩
  | call o k => cases hall

end Play

def sampleConsent (key : UInt8) : UserConsent where
  publicKey := [key]
  expirationTimestamp := 10000000000
  signature := [key] ++ ([key] ++ i64LeBytes 0 ++ i64LeBytes 10000000000 ++ [0])

def Move.settle (key : UInt8) : List Move :=
  [.importUser (hexEncode [key]),
    .client (hexEncode [key]) "_internal:user_consent"
      (Prost.selfDelimiting.userConsent.encode (sampleConsent key))]

def Request.ofUser (key : UInt8) (call : TaskCall) : Request :=
  ⟨0,{ privilege := some "user", userId := some (hexEncode [key]) },call,none⟩

def Request.ofGuest (key : UInt8) (call : TaskCall) : Request :=
  ⟨0,{ privilege := some "guest", userId := some (hexEncode [key]) },call,none⟩

/-- User 08 asks user 07, and perhaps others, to take part in a task. -/
def sampleTask (taskId : String) (others : List Participant) : Task where
  taskId := taskId
  participants := [⟨hexEncode [8],"initiator"⟩,⟨hexEncode [7],"member"⟩] ++ others
  requireAgreement := true
  expirationTime := 1000

/-- The first message about a task, with the initiator's approval and whatever is put behind it. -/
def sampleOffer (task : Task) (decisions : List Decision) : TaskCall :=
  let decision := makeDecision Primitives.ideal Prost.selfDelimiting (Deployment.ideal.keys 0) true
    false "" task (Prost.selfDelimiting.userConsent.encode (sampleConsent 8))
  .interCoreSyncTask { task with decisions := decision.toOption.toList ++ [default] ++ decisions }

def sampleApproval : TaskCall :=
  .confirmTask { taskId := "id", decision := some { isApproved := true } }

end CoLinkServer
