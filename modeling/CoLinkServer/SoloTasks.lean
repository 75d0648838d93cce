import CoLinkServer.SoloRuns
import CoLinkServer.TaskKeys

/-! One request of the task service that is served while nobody else writes the records and lists
of its user. Everything else may answer as it likes, and differently every time. -/
namespace CoLinkServer

open Interleaving

namespace SoloTasks

open TaskRecords TaskTraces TaskKeys

variable {σ : Type}

/-- What the server answers about the values of a user; an id that it makes up names no record. -/
def Answers (u : String) (value : String → Option Bytes) : (o : Op) → Res o → Prop
  | .storageRead u' k,r => u' = u → Guarded k → r.toOption = value k
  | .storageContains u' k,r => u' = u → Guarded k → r = (value k).isSome
  | .newUuid,id => NoColon id ∧ value (recordKey id) = none
  | _,_ => True

/-- The values after an operation. An update stores its payload whether or not it succeeds. -/
def written (u : String) (value : String → Option Bytes) : Op → String → Option Bytes
  | .storageUpdate _ u' k payload,k' => if u' = u ∧ k' = k then some payload else value k'
  | _,k' => value k'

structure Obeys (u : String) (value : σ → String → Option Bytes) (o : Op) (x : σ) (r : Res o)
    (x' : σ) : Prop where
  answers : Answers u (value x) o r
  effect : ∀ k, Guarded k → value x' k = written u (value x) o k

def Lawful (f : Machine Op Res σ) (u : String) (value : σ → String → Option Bytes) : Prop :=
  ∀ o x, Obeys u value o x (f o x).1 (f o x).2

/-- Every operation of every run of the cores obeys, with what the core has stored for the user. -/
theorem obeys_of_exec {D : Deployment} {c c' : TaskConfig} {u : String} {t : ℕ} {q : Request}
    {o : Op} {r : Res o} (hc : D.Reach c) (htidy : Everywhere (OnWrites Tidy) c.state.history)
    (hu : NoColon u) (hs : D.system.Step c (.op t q o r) c') :
    Obeys u (fun w => w.read q.core u) o c.state.shared r c'.state.shared := by
  have hc' := hc.step hs
  cases hs with
  | @op t q o kont r x runs does =>
    refine ⟨?_,fun k hk => ?_⟩
    · cases does with
      | storageRead u' k =>
        rintro rfl -
        cases hv : c.state.shared.read q.core u' k with
        | none =>
          cases hr : BasicStorage.readKeyName (c.state.shared.cores q.core).storage u' k with
          | error e => rfl
          | ok payload =>
            rw [World.read,BasicStorage.readKeyName_eq_ok.mp hr] at hv
            cases hv
        | some payload => rw [BasicStorage.readKeyName_eq_ok.mpr hv]; rfl
      | storageContains u' k =>
        rintro rfl -
        exact BasicStorage.readFromKeyNames_isOk
      | newUuid id format fresh =>
        refine ⟨format,?_⟩
        rw [read_eq_stored hc hu (guarded_recordKey id)]
        cases hv : stored q.core u (recordKey id) c.state.history with
        | none => rfl
        | some payload =>
          obtain ⟨t',q',site,r',past,-,hw⟩ := write_of_stored hv
          exact absurd ((idsFresh hc htidy).written id format _ _ _ _ _ _
            (hw.subset (List.mem_cons_self ..))) fresh
      | _ => trivial
    · show x.read q.core u k = _
      rcases exec_storage does with ⟨site,u',k',payload,now,rfl,-,hself⟩ | ⟨hkind,hsame⟩
      · have hu' : NoColon u' := writer_noColon hc' List.suffix_rfl
        rw [World.read,hself,written]
        split_ifs with he
        · obtain ⟨rfl,rfl⟩ := he
          exact BasicStorage.value_update_self _ _ _
        · exact BasicStorage.value_update_of_ne _ hu' hu (fun hh => he ⟨hh.1.symm,hh.2⟩) _ _
      · rw [World.read,hsame]
        cases o <;> first | exact absurd rfl hkind | rfl

/-- The operation does not write under the key. -/
def Spares (u k : String) : Op → Prop
  | .storageUpdate _ u' k' _ => ¬(u' = u ∧ k' = k)
  | _ => True

theorem spares_of_kind {u k : String} {o : Op} (ho : o.kind ≠ .storageUpdate) : Spares u k o := by
  cases o <;> first | exact absurd rfl ho | trivial

theorem written_of_spares {u k : String} {value : String → Option Bytes} {o : Op}
    (ho : Spares u k o) : written u value o k = value k := by
  cases o with
  | storageUpdate site u' k' payload => exact if_neg fun hh => ho ⟨hh.1,hh.2.symm⟩
  | _ => rfl

variable {f : Machine Op Res σ} {u k : String} {value : σ → String → Option Bytes} {α : Type}
  {M : Prost} {x : σ} {h : List TaskEvent}

theorem Lawful.spared (hf : Lawful f u value) (hk : Guarded k) {o : Op} (ho : Spares u k o) (x : σ) :
    value (f o x).2 k = value x k := by
  rw [(hf o x).effect k hk,written_of_spares ho]

theorem Lawful.stored (hf : Lawful f u value) (hk : Guarded k) (site : Site) (payload : Bytes)
    (x : σ) : value (f (.storageUpdate site u k payload) x).2 k = some payload := by
  rw [(hf _ x).effect k hk]
  exact if_pos ⟨rfl,rfl⟩

theorem Lawful.keeps (hf : Lawful f u value) (hk : Guarded k) {p : Service α}
    (hp : p.All (Spares u k)) (b : Option Bytes) : p.Keeps f fun x => value x k = b :=
  Prog.Keeps.of_all hp fun _ ho x hx => (hf.spared hk ho x).trans hx

theorem Lawful.eval_spared (hf : Lawful f u value) (hk : Guarded k) {p : Service α}
    (hp : p.All (Spares u k)) : value (p.eval f x h).state k = value x k :=
  hf.keeps hk hp _ x h rfl

theorem spares_of_lists {task : Task} {p : Service α} (hp : p.All (OnLists M u task))
    (hk : ∀ l, ListOf u task l → k ≠ l ∧ k ≠ l ++ ":latest") : p.All (Spares u k) := by
  refine hp.mono fun o ho => ?_
  cases o with
  | storageUpdate site u' k' payload =>
    rintro ⟨-,rfl⟩
    cases site with
    | list => exact (hk _ ho.2.1).1 rfl
    | latest =>
      obtain ⟨-,l,hl,he,-⟩ := ho
      exact (hk l hl).2 he
    | _ => exact ho
  | _ => trivial

theorem recordKey_ne_list {task : Task} (hs : task.status ∈ statuses) {id l : String}
    (hid : ¬ Reserved id) (hl : ListOf u task l) : recordKey id ≠ l ∧ recordKey id ≠ l ++ ":latest" := by
  have hne := hl.ne_recordKey fun hc => hid ⟨_,hs,hc⟩
  exact ⟨hne.1.symm,hne.2.symm⟩

theorem protocolListKey_ne (task task' : Task) :
    "_internal:" ++ TaskService.protocolListKey u task ≠ "_internal:" ++ TaskService.statusListKey task' ∧
    "_internal:" ++ TaskService.protocolListKey u task ≠
      "_internal:" ++ (TaskService.statusListKey task' ++ ":latest") := by
  constructor <;>
  · intro he
    have hl := congrArg String.toList he
    simp [TaskService.protocolListKey,TaskService.statusListKey] at hl

theorem Lawful.keeps_perform (hf : Lawful f u value) (hk : Guarded k) {b : Option Bytes} {o : Op}
    {g : Res o → Service α} (ho : Spares u k o)
    (hg : ∀ x, value x k = b → (g (f o x).1).Keeps f fun x => value x k = b) :
    (perform o >>= g).Keeps f fun x => value x k = b :=
  fun x _ hx => hg x hx _ _ ((hf.spared hk ho x).trans hx)

theorem spares_storeTask {site : Site} {task : Task} (hk : recordKey task.taskId ≠ k) :
    (TaskService.storeTask M site u task).All (Spares u k) :=
  TaskService.all_storeTask fun hh => hk hh.2

theorem spares_locked {s : Section} {p : Service α} (hp : p.All (Spares u k)) :
    (TaskService.locked s p).All (Spares u k) := TaskService.all_locked trivial trivial hp

section Sending

variable {b : Bytes} (hf : Lawful f u value) (hk : Guarded k) (hlists : ∀ task : Task,
  task.status = "started" → ∀ l, ListOf u task l → k ≠ l ∧ k ≠ l ++ ":latest")
include hf hk hlists

theorem keeps_queryFromRegistries (target : String) :
    (TaskService.queryFromRegistries M u target).Keeps f fun x => value x k = some b := by
  refine hf.keeps_perform hk trivial fun x hx => hf.keeps hk ?_ _
  have hid : recordKey (f .newUuid x).1 ≠ k := by
    intro he
    have hnone := (hf .newUuid x).answers.2
    rw [he,hx] at hnone
    cases hnone
  refine (TaskService.all_perform trivial).bind fun now => ?_
  refine (TaskService.all_generateDecision trivial fun _ => trivial).bind fun d => ?_
  show (TaskService.storeTask M .query u _ >>= fun _ => TaskService.indexTask M u
    { TaskService.registryTask M (f .newUuid x).1 u target now with decisions := [d] }).All _
  refine (spares_storeTask hid).bind fun _ => spares_locked ?_
  exact spares_of_lists (all_addTaskNewStatus _) (hlists _ rfl)

theorem contacts_keeps :
    TaskService.Contacts M u fun _ p => p.Keeps f fun x => value x k = some b where
  toClosed := Prog.closed_keeps f _
  ask o ho := hf.keeps hk (TaskService.all_perform (spares_of_kind fun hn => by
    rw [hn] at ho
    exact absurd ho (by decide))) _
  query := keeps_queryFromRegistries hf hk hlists
  contact o ho := hf.keeps hk (TaskService.all_perform (spares_of_kind fun hn => by
    rw [hn] at ho
    exact absurd ho (by decide))) _

end Sending

/-- The addresses at which no connection is accepted, and the reverse connections that have been
opened, with whether the other end is still there. -/
structure Peers where
  refusing : List String := []
  senders : List (String × Bool) := []

/-- What has been stored for each user and key name, newest first. -/
abbrev Stored : Type := List ((String × String) × Bytes)

def valueIn (u : String) (x : Stored) (k : String) : Option Bytes := x.lookup (u,k)

/-- An id that is longer than every key name. -/
def freshId (x : Stored) : String :=
  String.ofList (List.replicate (x.flatMap fun e => e.1.2.toList).length 'i')

def sampleMachine (peers : Peers) : Machine Op Res Stored
  | .importedUsersContains _,x => (true,x)
  | .storageUpdate _ u k payload,x => (.ok k,((u,k),payload) :: x)
  | .storageRead u k,x => ((valueIn u x k).elim (.error "Key name not found.") .ok,x)
  | .storageContains u k,x => ((valueIn u x k).isSome,x)
  | .lock _,x => ((),x)
  | .unlock _,x => ((),x)
  | .utcNow,x => (0,x)
  | .newUuid,x => (freshId x,x)
  | .sleep,x => ((),x)
  | .checkDecision _ _ _,x => (.ok (),x)
  | .makeDecision a r reason _ _ _,x => (.ok { isApproved := a, isRejected := r, reason := reason },x)
  | .sendersContains _ v,x => ((peers.senders.lookup v).isSome,x)
  | .sendersSend _ v _,x =>
    (if peers.senders.lookup v = some true then .ok () else .error (.internal "channel closed"),x)
  | .sendersInsert _ _,x => ((),x)
  | .lockHandlers,x => ((),x)
  | .unlockHandlers,x => ((),x)
  | .handlerRunning _ _,x => (false,x)
  | .spawnHandler _ _,x => ((),x)
  | .grpcConnect address,x =>
    (if address ∈ peers.refusing then .error "transport error" else .ok (),x)
  | .post _,x => (0,x)
  | .response _,x => (.ok (),x)
  | .reply _,x => ((),x)

theorem valueIn_freshId (u : String) (x : Stored) : valueIn u x (recordKey (freshId x)) = none := by
  have hlen (y : Stored) {k : String} {b : Bytes} (hb : valueIn u y k = some b) :
      k.toList.length ≤ (y.flatMap fun e => e.1.2.toList).length := by
    induction y with
    | nil => cases hb
    | cons e y ih =>
      obtain ⟨⟨u',k'⟩,b'⟩ := e
      rw [List.flatMap_cons,List.length_append]
      by_cases he : (u,k) = (u',k')
      · obtain ⟨rfl,rfl⟩ := Prod.mk.inj he
        exact Nat.le_add_right _ _
      · rw [valueIn,List.lookup_cons,beq_eq_false_iff_ne.mpr he] at hb
        exact (ih hb).trans (Nat.le_add_left _ _)
  cases hv : valueIn u x (recordKey (freshId x)) with
  | none => rfl
  | some b =>
    have hh := hlen x hv
    simp only [recordKey,freshId,String.toList_append,String.toList_ofList,List.length_append,
      List.length_replicate] at hh
    have hpos : 0 < "_internal:".toList.length := by decide
    omega

theorem sample_lawful (peers : Peers) (u : String) : Lawful (sampleMachine peers) u (valueIn u) := by
  intro o x
  cases o with
  | storageUpdate site u' k payload =>
    refine ⟨trivial,fun k' _ => ?_⟩
    rw [written]
    split_ifs with he
    · obtain ⟨rfl,rfl⟩ := he
      simp [sampleMachine,valueIn]
    · have hne : ((u,k') == (u',k)) = false :=
        beq_eq_false_iff_ne.mpr fun hh => he ⟨(Prod.mk.inj hh).1.symm,(Prod.mk.inj hh).2⟩
      simp only [sampleMachine,valueIn,List.lookup_cons,hne]
  | storageRead u' k =>
    refine ⟨?_,fun _ _ => rfl⟩
    rintro rfl -
    show ((valueIn u' x k).elim (Except.error "Key name not found.") Except.ok).toOption = _
    cases valueIn u' x k <;> rfl
  | storageContains u' k =>
    refine ⟨?_,fun _ _ => rfl⟩
    rintro rfl -
    rfl
  | newUuid =>
    refine ⟨⟨?_,valueIn_freshId u x⟩,fun _ _ => rfl⟩
    simp [sampleMachine,freshId,NoColon]
  | _ => exact ⟨trivial,fun _ _ => rfl⟩

/-- What a server has to know of a user to reach the user's core. -/
def contact (u v address : String) : Stored :=
  [((u,"_internal:known_users:" ++ v ++ ":core_addr"),address.toUTF8.data.toList),
    ((u,"_internal:known_users:" ++ v ++ ":guest_jwt"),[])]

end SoloTasks
end CoLinkServer
