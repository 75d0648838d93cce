import CoLinkServer.SoloTasks

/-! The core that has opened a reverse connection reads the tasks that come back on it, and serves each
as if the other core had sent it in a call. Whatever serving one of them comes to, nobody waits for it:
the handler runs in a thread of its own. -/
namespace CoLinkServer

open Interleaving

namespace ReverseStreams

inductive Op
  | message
  | interCoreSyncTask (metadata : Metadata) (task : Task)

abbrev Res : Op → Type
  | .message => Except Abort (Option Task)
  | .interCoreSyncTask _ _ => Except Abort Unit

abbrev Service (α : Type) : Type := Prog Op Res Abort α

abbrev StreamEvent : Type := Event Op Res

def perform (o : Op) : Service (Res o) := .call o .ret

/-- The operator `?`. -/
def attempted {α : Type} : Except Abort α → Service α
  | .ok a => .ret a
  | .error e => .fail e

/-- What has become of the handler when it has not failed. -/
inductive Progress
  | reading | ended
deriving DecidableEq

/-- The user who has opened the connection. The id comes from the metadata of a request, so it may be
put into metadata again. -/
abbrev UserId : Type := {userId : String // TaskService.isMetadataValue userId = true}

/-- The task as a guest of the user would send it. -/
def guestRequest (userId : UserId) (task : Task) : Metadata × Task :=
  ({ privilege := some "guest", userId := some userId.1 },task)

/-- The loop over the stream, with the number of rounds it is watched for. -/
def handleStream (userId : UserId) : ℕ → Service Progress
  | 0 => .ret .reading
  | rounds+1 => do
    let task ← perform .message >>= attempted
    match task with
    | none => .ret .ended
    | some task => do
      let request := guestRequest userId task
      perform (.interCoreSyncTask request.1 request.2) >>= attempted
      handleStream userId rounds

def messageOf : StreamEvent → Option Task
  | ⟨.message,.ok task⟩ => task
  | _ => none

def servedRequest : StreamEvent → Option (Metadata × Task)
  | ⟨.interCoreSyncTask metadata task,_⟩ => some (metadata,task)
  | _ => none

/-- The tasks that the stream has given, in this order. -/
def messages (h : List StreamEvent) : List Task := (h.filterMap messageOf).reverse

/-- What has been passed on to be served, in this order. -/
def passed (h : List StreamEvent) : List (Metadata × Task) := (h.filterMap servedRequest).reverse

theorem messages_cons (e : StreamEvent) (h : List StreamEvent) :
    messages (e :: h) = messages h ++ (messageOf e).toList := by
  cases he : messageOf e <;> simp [messages,he]

theorem passed_cons (e : StreamEvent) (h : List StreamEvent) :
    passed (e :: h) = passed h ++ (servedRequest e).toList := by
  cases he : servedRequest e <;> simp [passed,he]

/-- Everything that has been read has been passed on, once and in its order. -/
def InStep (userId : UserId) (h : List StreamEvent) : Prop :=
  passed h = (messages h).map (guestRequest userId)

/-- Nothing else has been passed on. -/
def NotAhead (userId : UserId) (h : List StreamEvent) : Prop :=
  passed h <+: (messages h).map (guestRequest userId)

section InStep

variable {userId : UserId} {h : List StreamEvent} (hs : InStep userId h)
include hs

theorem InStep.notAhead : NotAhead userId h := by
  rw [NotAhead,show passed h = _ from hs]

theorem InStep.noTask {read : Except Abort (Option Task)} (hread : messageOf ⟨.message,read⟩ = none) :
    InStep userId (⟨.message,read⟩ :: h) := by
  rw [InStep,passed_cons,messages_cons,hread,show passed h = _ from hs]
  simp [servedRequest]

theorem InStep.task (task : Task) : NotAhead userId (⟨.message,.ok (some task)⟩ :: h) := by
  rw [NotAhead,passed_cons,messages_cons,List.map_append,show passed h = _ from hs]
  simp [servedRequest]

theorem InStep.served (task : Task) (r : Except Abort Unit) :
    InStep userId (⟨.interCoreSyncTask (guestRequest userId task).1 (guestRequest userId task).2,r⟩ ::
      ⟨.message,.ok (some task)⟩ :: h) := by
  rw [InStep,passed_cons,messages_cons,passed_cons,messages_cons,show passed h = _ from hs]
  simp [servedRequest,messageOf]

end InStep

theorem traced_handleStream (userId : UserId) (rounds : ℕ) {h : List StreamEvent}
    (hs : InStep userId h) :
    (handleStream userId rounds).Traced (NotAhead userId) h fun _ => InStep userId := by
  induction rounds generalizing h with
  | zero => exact hs
  | succ rounds ih =>
    intro read
    cases read with
    | error e => exact ⟨(hs.noTask rfl).notAhead,hs.noTask rfl⟩
    | ok read =>
      cases read with
      | none => exact ⟨(hs.noTask rfl).notAhead,hs.noTask rfl⟩
      | some task =>
        refine ⟨hs.task task,fun r => ⟨(hs.served task r).notAhead,?_⟩⟩
        cases r with
        | error e => exact hs.served task (.error e)
        | ok _ => exact ih (hs.served task (.ok ()))

/-- What arrives on the stream, each task with the result of serving it. -/
abbrev Arrivals : Type := List (Task × Except Abort Unit)

/-- The stream gives one task after another, and ends after the last one. -/
def playback : Machine Op Res Arrivals
  | .message,x => (.ok (x.head?.map Prod.fst),x)
  | .interCoreSyncTask _ _,x => ((x.head?.map Prod.snd).getD (.ok ()),x.tail)

/-- The handler passes on every task, once and in order, and goes on until the stream ends. -/
def DropsNothing (userId : UserId) (x : Arrivals) : Prop := ∀ rounds, x.length < rounds →
  let e := (handleStream userId rounds).eval playback x []
  passed e.events = (x.map Prod.fst).map (guestRequest userId) ∧ e.result = .ok .ended

/-- The tasks up to the first one that cannot be served. -/
def upToFailure : Arrivals → List Task
  | [] => []
  | (task,.ok _) :: x => task :: upToFailure x
  | (task,.error _) :: _ => [task]

/-- The result of the first one that cannot be served, if there is one. -/
def firstFailure : Arrivals → Except Abort Progress
  | [] => .ok .ended
  | (_,.ok _) :: x => firstFailure x
  | (_,.error e) :: _ => .error e

/-- The first error ends the loop, however long it is watched. -/
theorem eval_handleStream (userId : UserId) {rounds : ℕ} {x : Arrivals} (hx : x.length < rounds)
    (h : List StreamEvent) :
    passed ((handleStream userId rounds).eval playback x h).events =
      passed h ++ (upToFailure x).map (guestRequest userId) ∧
    ((handleStream userId rounds).eval playback x h).result = firstFailure x := by
  induction x generalizing rounds h with
  | nil =>
    cases rounds with
    | zero => cases hx
    | succ rounds =>
      refine ⟨?_,rfl⟩
      show passed (⟨.message,.ok none⟩ :: h) = _
      rw [passed_cons]
      rfl
  | cons arrival x ih =>
    cases rounds with
    | zero => cases hx
    | succ rounds =>
      obtain ⟨task,served⟩ := arrival
      let round : List StreamEvent := ⟨.interCoreSyncTask (guestRequest userId task).1
        (guestRequest userId task).2,served⟩ :: ⟨.message,.ok (some task)⟩ :: h
      have hround : passed round = passed h ++ [guestRequest userId task] := by
        rw [passed_cons,passed_cons]
        simp [servedRequest]
      cases served with
      | error e => exact ⟨hround,rfl⟩
      | ok _ =>
        obtain ⟨hpassed,hresult⟩ := ih (Nat.lt_of_succ_lt_succ hx) round
        refine ⟨hpassed.trans ?_,hresult⟩
        rw [hround,upToFailure,List.map_cons,List.append_assoc,List.singleton_append]

theorem upToFailure_eq_iff (x : Arrivals) :
    upToFailure x = x.map Prod.fst ↔ ∀ y ∈ x.dropLast, y.2 = .ok () := by
  induction x with
  | nil => simp [upToFailure]
  | cons arrival x ih =>
    obtain ⟨task,served⟩ := arrival
    cases x with
    | nil => cases served <;> simp [upToFailure]
    | cons next x =>
      cases served with
      | error e => simp [upToFailure]
      | ok _ => simpa [upToFailure] using ih

theorem firstFailure_eq_ended_iff (x : Arrivals) :
    firstFailure x = .ok .ended ↔ ∀ y ∈ x, y.2 = .ok () := by
  induction x with
  | nil => simp [firstFailure]
  | cons arrival x ih =>
    obtain ⟨task,served⟩ := arrival
    cases served with
    | error e => simp [firstFailure]
    | ok _ => simpa [firstFailure] using ih

theorem passes_all_iff (userId : UserId) {rounds : ℕ} {x : Arrivals} (hx : x.length < rounds) :
    passed ((handleStream userId rounds).eval playback x []).events =
      (x.map Prod.fst).map (guestRequest userId) ↔ ∀ y ∈ x.dropLast, y.2 = .ok () := by
  have hinj : Function.Injective (guestRequest userId) := fun _ _ he => (Prod.mk.inj he).2
  rw [(eval_handleStream userId hx []).1,show passed [] = [] from rfl,List.nil_append,
    (List.map_injective_iff.mpr hinj).eq_iff,upToFailure_eq_iff]

theorem complete_iff (userId : UserId) {rounds : ℕ} {x : Arrivals} (hx : x.length < rounds) :
    (passed ((handleStream userId rounds).eval playback x []).events =
        (x.map Prod.fst).map (guestRequest userId) ∧
      ((handleStream userId rounds).eval playback x []).result = .ok .ended) ↔ ∀ y ∈ x, y.2 = .ok () := by
  rw [passes_all_iff userId hx,(eval_handleStream userId hx []).2,firstFailure_eq_ended_iff]
  exact and_iff_right_of_imp fun hok y hy => hok y (List.mem_of_mem_dropLast hy)

/-- The connection drops nothing exactly when every task on it can be served. -/
theorem drops_nothing_iff (userId : UserId) (x : Arrivals) :
    DropsNothing userId x ↔ ∀ y ∈ x, y.2 = .ok () :=
  ⟨fun hall => (complete_iff userId (Nat.lt_succ_self _)).mp (hall _ (Nat.lt_succ_self _)),
    fun hok _ hx => (complete_iff userId hx).mpr hok⟩

section OnCore

variable {σ : Type} (M : Prost) (g : Machine CoLinkServer.Op CoLinkServer.Res σ)

/-- The task is served by the program of the task service; the stream gives the tasks that are left. -/
def onCore : Machine Op Res (List Task × σ)
  | .message,(tasks,x) => (.ok tasks.head?,(tasks.tail,x))
  | .interCoreSyncTask metadata task,(tasks,x) =>
    let e := (TaskService.interCoreSyncTask M metadata task).eval g x []
    (e.result,(tasks,e.state))

/-- The tasks with what comes of them if each of them is served, in this order. -/
def outcomes (userId : UserId) : List Task → σ → Arrivals
  | [],_ => []
  | task :: tasks,x =>
    let request := guestRequest userId task
    let e := (TaskService.interCoreSyncTask M request.1 request.2).eval g x []
    (task,e.result) :: outcomes userId tasks e.state

theorem map_outcomes (userId : UserId) (tasks : List Task) (x : σ) :
    (outcomes M g userId tasks x).map Prod.fst = tasks := by
  induction tasks generalizing x with
  | nil => rfl
  | cons task tasks ih =>
    rw [outcomes,List.map_cons,ih]

theorem eval_onCore (userId : UserId) (rounds : ℕ) (tasks : List Task) (x : σ) (h : List StreamEvent) :
    let e := (handleStream userId rounds).eval (onCore M g) (tasks,x) h
    let e' := (handleStream userId rounds).eval playback (outcomes M g userId tasks x) h
    e.events = e'.events ∧ e.result = e'.result := by
  induction rounds generalizing tasks x h with
  | zero => exact ⟨rfl,rfl⟩
  | succ rounds ih =>
    cases tasks with
    | nil => exact ⟨rfl,rfl⟩
    | cons task tasks =>
      rcases hserved : (TaskService.interCoreSyncTask M (guestRequest userId task).1
        (guestRequest userId task).2).eval g x [] with ⟨served,x',_⟩
      cases served with
      | error e => simp [handleStream,perform,attempted,onCore,outcomes,playback,hserved]
      | ok _ => simpa [handleStream,perform,attempted,onCore,outcomes,playback,hserved] using ih tasks x' _

theorem complete_onCore_iff (userId : UserId) {rounds : ℕ} {tasks : List Task}
    (htasks : tasks.length < rounds) (x : σ) :
    (passed ((handleStream userId rounds).eval (onCore M g) (tasks,x) []).events =
        tasks.map (guestRequest userId) ∧
      ((handleStream userId rounds).eval (onCore M g) (tasks,x) []).result = .ok .ended) ↔
    ∀ y ∈ outcomes M g userId tasks x, y.2 = .ok () := by
  obtain ⟨hevents,hresult⟩ := eval_onCore M g userId rounds tasks x []
  have hmap := map_outcomes M g userId tasks x
  have hlength : (outcomes M g userId tasks x).length < rounds := by
    rwa [← List.length_map,hmap]
  rw [hevents,hresult,← complete_iff userId hlength,hmap]

end OnCore

open SoloTasks

def receiver : UserId := ⟨"b",by decide⟩

/-- A task that another user offers. -/
def offered (taskId : String) (isApproved : Bool) : Task where
  taskId := taskId
  protocolName := "p"
  participants := [⟨"a","initiator"⟩,⟨"b","receiver"⟩]
  decisions := [{ isApproved := isApproved }]

/-- The first task has not been approved by its initiator; the second one could be served. -/
theorem second_task_lost :
    let tasks := [offered "first" false,offered "second" true]
    let e := (handleStream receiver 3).eval (onCore Prost.selfDelimiting (sampleMachine {})) (tasks,[]) []
    passed e.events = [guestRequest receiver (offered "first" false)] ∧
    e.result = .error (.internal "Initiator's decision is not approved.") ∧
    (outcomes Prost.selfDelimiting (sampleMachine {}) receiver tasks []).map Prod.snd =
      [.error (.internal "Initiator's decision is not approved."),.ok ()] ∧
    ¬ DropsNothing receiver (outcomes Prost.selfDelimiting (sampleMachine {}) receiver tasks []) := by
  refine ⟨by decide +kernel,by decide +kernel,by decide +kernel,fun hall => ?_⟩
  have hresult := (hall 3 (by decide +kernel)).2
  revert hresult
  decide +kernel

end ReverseStreams
end CoLinkServer
