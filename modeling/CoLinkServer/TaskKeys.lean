import CoLinkServer.ConcreteRuns
import CoLinkServer.TaskVersions

/-! The keys under which the task service keeps its values. They are joined without escaping,
so what keeps them apart is that a task id is not the name of a status list and that a protocol
name and a role can be told apart when they are joined. -/
namespace CoLinkServer

open Interleaving SeparatedText

/-- The list of a status, or of a protocol and a status; of the started tasks of a protocol
there is one for each role. -/
inductive TaskList
  | status (status : String)
  | protocol (protocolName status : String)
  | started (protocolName role : String)
deriving DecidableEq

/-- What the task service keeps: records, lists, and a pointer to the last entry of each list. -/
inductive Place
  | record (taskId : String)
  | list (l : TaskList)
  | latest (l : TaskList)
deriving DecidableEq

namespace TaskKeys

open TaskRecords TaskTraces

/-- The part of the key of a list in front of the status. -/
def subject : TaskList → String
  | .status _ => "tasks:status"
  | .protocol protocolName _ => "protocols:" ++ protocolName
  | .started protocolName role => "protocols:" ++ (protocolName ++ ":" ++ role)

def statusOf : TaskList → String
  | .status status => status
  | .protocol _ status => status
  | .started _ _ => "started"

def listKey (l : TaskList) : String := subject l ++ ":" ++ statusOf l

def key : Place → String
  | .record taskId => "tasks:" ++ taskId
  | .list l => listKey l
  | .latest l => listKey l ++ ":latest"

/-- The lists in which a user's task is kept while it has a status. -/
def listsAt (u : String) (task : Task) (status : String) : List TaskList :=
  [if status = "started" then .started task.protocolName (task.roleOf u)
    else .protocol task.protocolName status,.status status]

/-- Everything that is kept for a user's task as its status changes. -/
def places (u : String) (task : Task) : List Place :=
  .record task.taskId :: (statuses.flatMap (listsAt u task)).flatMap fun l => [.list l,.latest l]

theorem listsAt_keys (u : String) (task : Task) : (listsAt u task task.status).map listKey =
    [TaskService.protocolListKey u task,TaskService.statusListKey task] := by
  by_cases hs : task.status = "started"
  · simp [listsAt,TaskService.protocolListKey,TaskService.protocolKey,TaskService.statusListKey,
      listKey,subject,statusOf,hs]
  · simp [listsAt,TaskService.protocolListKey,TaskService.protocolKey,TaskService.statusListKey,
      listKey,subject,statusOf,hs]

theorem colon_inj {a a' b b' : String} (hb : NoColon b) (hb' : NoColon b') :
    a ++ ":" ++ b = a' ++ ":" ++ b' ↔ a = a' ∧ b = b' := by
  have hh : (a ++ ":" ++ b = a' ++ ":" ++ b') ↔
      a.toList ++ ':' :: b.toList = a'.toList ++ ':' :: b'.toList := by
    rw [← String.toList_inj]
    simp
  rw [hh,last_sep_inj hb hb',String.toList_inj,String.toList_inj]

theorem noColon_of_status : ∀ s ∈ statuses, NoColon s := by decide

theorem status_ne_latest : ∀ s ∈ statuses, s ≠ "latest" := by decide

/-- A list with one of the known statuses; the started tasks of a protocol have lists of their
own. -/
def Known (l : TaskList) : Prop :=
  statusOf l ∈ statuses ∧ ∀ protocolName, l ≠ .protocol protocolName "started"

theorem known_of_listsAt {u : String} {task : Task} {s : String} (hs : s ∈ statuses) {l : TaskList}
    (hl : l ∈ listsAt u task s) : Known l := by
  have hl' : l = (if s = "started" then TaskList.started task.protocolName (task.roleOf u)
      else .protocol task.protocolName s) ∨ l = .status s := by simpa [listsAt] using hl
  rcases hl' with rfl | rfl
  · split_ifs with hst
    · exact ⟨by simp [statusOf,statuses],nofun⟩
    · exact ⟨hs,fun name he => hst (TaskList.protocol.inj he).2⟩
  · exact ⟨hs,nofun⟩

theorem tasks_ne_protocols (a b : String) : "tasks:" ++ a ≠ "protocols:" ++ b := by
  intro he
  have hh := congrArg (fun s => s.toList.head?) he
  simp at hh

/-- The keys of two lists differ, but for protocols and roles that become the same text. -/
theorem listKey_inj {l l' : TaskList} (hl : Known l) (hl' : Known l')
    (he : listKey l = listKey l') : l = l' ∨ ∃ name role name' role',
      l = .started name role ∧ l' = .started name' role' ∧
      name ++ ":" ++ role = name' ++ ":" ++ role' := by
  obtain ⟨hsub,hst⟩ := (colon_inj (noColon_of_status _ hl.1) (noColon_of_status _ hl'.1)).mp he
  cases l with
  | status s =>
    cases l' with
    | status s' => exact .inl (congrArg TaskList.status hst)
    | protocol name s' => exact absurd hsub (tasks_ne_protocols "status" name)
    | started name role => exact absurd hsub (tasks_ne_protocols "status" _)
  | protocol name s =>
    cases l' with
    | status s' => exact absurd hsub.symm (tasks_ne_protocols "status" name)
    | protocol name' s' =>
      have hname : name = name' := (String.append_right_inj _).mp hsub
      have hs : s = s' := hst
      exact .inl (by rw [hname,hs])
    | started name' role' =>
      have hs : s = "started" := hst
      exact absurd (by rw [hs]) (hl.2 name)
  | started name role =>
    cases l' with
    | status s' => exact absurd hsub.symm (tasks_ne_protocols "status" _)
    | protocol name' s' =>
      have hs : "started" = s' := hst
      exact absurd (by rw [← hs]) (hl'.2 name')
    | started name' role' =>
      exact .inr ⟨name,role,name',role',rfl,rfl,(String.append_right_inj _).mp hsub⟩

theorem listKey_ne_latest {l l' : TaskList} (hl : Known l) : listKey l ≠ listKey l' ++ ":latest" := by
  have hlatest : listKey l' ++ ":latest" = listKey l' ++ ":" ++ "latest" := by
    rw [String.append_assoc]
    rfl
  intro he
  rw [hlatest] at he
  have hst := ((colon_inj (noColon_of_status _ hl.1) (by decide)).mp he).2
  exact status_ne_latest _ hl.1 hst

theorem record_ne_list {id : String} (hid : ¬ Reserved id) {l : TaskList} (hl : Known l) :
    "tasks:" ++ id ≠ listKey l ∧ "tasks:" ++ id ≠ listKey l ++ ":latest" := by
  cases l with
  | status s =>
    have hkey : listKey (.status s) = "tasks:" ++ ("status:" ++ s) := by
      simp [listKey,subject,statusOf,← String.append_assoc]
    have hkey' : listKey (.status s) ++ ":latest" = "tasks:" ++ ("status:" ++ s ++ ":latest") := by
      rw [hkey,String.append_assoc]
    rw [hkey',hkey]
    exact ⟨fun he => hid ⟨s,hl.1,.inl ((String.append_right_inj _).mp he)⟩,
      fun he => hid ⟨s,hl.1,.inr ((String.append_right_inj _).mp he)⟩⟩
  | protocol name s =>
    simp only [listKey,subject,String.append_assoc]
    exact ⟨tasks_ne_protocols _ _,tasks_ne_protocols _ _⟩
  | started name role =>
    simp only [listKey,subject,String.append_assoc]
    exact ⟨tasks_ne_protocols _ _,tasks_ne_protocols _ _⟩

/-- The key of everything that is kept for the two tasks tells what it is for. -/
def Separated (u : String) (task task' : Task) : Prop :=
  ∀ p ∈ places u task, ∀ p' ∈ places u task', key p = key p' → p = p'

/-- The ids are not names of status lists, and the protocols and the user's roles in them can be
told apart. -/
def Distinguishable (u : String) (task task' : Task) : Prop :=
  ¬ Reserved task.taskId ∧ ¬ Reserved task'.taskId ∧
  (task.protocolName ++ ":" ++ task.roleOf u = task'.protocolName ++ ":" ++ task'.roleOf u →
    task.protocolName = task'.protocolName ∧ task.roleOf u = task'.roleOf u)

theorem mem_places {u : String} {task : Task} {p : Place} : p ∈ places u task ↔
    p = .record task.taskId ∨ ∃ s ∈ statuses, ∃ l ∈ listsAt u task s, p = .list l ∨ p = .latest l := by
  simp only [places,List.mem_cons,List.mem_flatMap,List.not_mem_nil,or_false]
  constructor
  · rintro (hp | ⟨l,⟨s,hs,hl⟩,hp⟩)
    · exact .inl hp
    · exact .inr ⟨s,hs,l,hl,hp⟩
  · rintro (hp | ⟨s,hs,l,hl,hp⟩)
    · exact .inl hp
    · exact .inr ⟨l,⟨s,hs,hl⟩,hp⟩

theorem started_of_listsAt {u : String} {task : Task} {s name role : String}
    (hl : .started name role ∈ listsAt u task s) : name = task.protocolName ∧ role = task.roleOf u := by
  unfold listsAt at hl
  split_ifs at hl with hs
  · simpa using hl
  · simp at hl

theorem separated_iff (u : String) (task task' : Task) :
    Separated u task task' ↔ Distinguishable u task task' := by
  constructor
  · intro hsep
    have hlist {s : String} (hs : s ∈ statuses) (task : Task) {p : Place}
        (hp : p = .list (.status s) ∨ p = .latest (.status s)) : p ∈ places u task :=
      mem_places.mpr (.inr ⟨s,hs,.status s,by simp [listsAt],hp⟩)
    have hrecord (task : Task) : .record task.taskId ∈ places u task := mem_places.mpr (.inl rfl)
    have hkey (s : String) : listKey (.status s) = "tasks:" ++ ("status:" ++ s) := by
      simp [listKey,subject,statusOf,← String.append_assoc]
    have hkey' (s : String) : listKey (.status s) ++ ":latest" =
        "tasks:" ++ ("status:" ++ s ++ ":latest") := by rw [hkey,String.append_assoc]
    refine ⟨?_,?_,fun he => ?_⟩
    · rintro ⟨s,hs,hid | hid⟩
      · exact absurd (hsep _ (hrecord task) _ (hlist hs task' (.inl rfl))
          (by rw [key,key,hid,hkey])) nofun
      · exact absurd (hsep _ (hrecord task) _ (hlist hs task' (.inr rfl))
          (by rw [key,key,hid,hkey'])) nofun
    · rintro ⟨s,hs,hid | hid⟩
      · exact absurd (hsep _ (hlist hs task (.inl rfl)) _ (hrecord task')
          (by rw [key,key,hid,hkey])) nofun
      · exact absurd (hsep _ (hlist hs task (.inr rfl)) _ (hrecord task')
          (by rw [key,key,hid,hkey'])) nofun
    · have hstarted (task : Task) :
          .list (.started task.protocolName (task.roleOf u)) ∈ places u task :=
        mem_places.mpr (.inr ⟨"started",by decide,_,by simp [listsAt],.inl rfl⟩)
      have hp := hsep _ (hstarted task) _ (hstarted task') (by simp only [key,listKey,subject,statusOf,he])
      have hl := TaskList.started.inj (Place.list.inj hp)
      exact hl
  · rintro ⟨hid,hid',hunique⟩ p hp p' hp' he
    have hlists {s s' : String} (hs : s ∈ statuses) (hs' : s' ∈ statuses) {l l' : TaskList}
        (hl : l ∈ listsAt u task s) (hl' : l' ∈ listsAt u task' s') (he : listKey l = listKey l') :
        l = l' := by
      rcases listKey_inj (known_of_listsAt hs hl) (known_of_listsAt hs' hl') he with
        hll | ⟨name,role,name',role',rfl,rfl,hn⟩
      · exact hll
      · obtain ⟨rfl,rfl⟩ := started_of_listsAt hl
        obtain ⟨rfl,rfl⟩ := started_of_listsAt hl'
        obtain ⟨hname,hrole⟩ := hunique hn
        rw [hname,hrole]
    rcases mem_places.mp hp with rfl | ⟨s,hs,l,hl,hp⟩
    · rcases mem_places.mp hp' with rfl | ⟨s',hs',l',hl',hp'⟩
      · exact congrArg Place.record ((String.append_right_inj _).mp he)
      · have hne := record_ne_list hid (known_of_listsAt hs' hl')
        rcases hp' with rfl | rfl
        · exact absurd he hne.1
        · exact absurd he hne.2
    · rcases mem_places.mp hp' with rfl | ⟨s',hs',l',hl',hp'⟩
      · have hne := record_ne_list hid' (known_of_listsAt hs hl)
        rcases hp with rfl | rfl
        · exact absurd he.symm hne.1
        · exact absurd he.symm hne.2
      · rcases hp with rfl | rfl
        · rcases hp' with rfl | rfl
          · rw [hlists hs hs' hl hl' he]
          · exact absurd he (listKey_ne_latest (known_of_listsAt hs hl))
        · rcases hp' with rfl | rfl
          · exact absurd he.symm (listKey_ne_latest (known_of_listsAt hs' hl'))
          · rw [hlists hs hs' hl hl' ((String.append_left_inj _).mp he)]

theorem statusOf_listsAt {u : String} {task : Task} {s : String} {l : TaskList}
    (hl : l ∈ listsAt u task s) : statusOf l = s := by
  unfold listsAt at hl
  split_ifs at hl with hs
  · have hl' : l = .started task.protocolName (task.roleOf u) ∨ l = .status s := by simpa using hl
    rcases hl' with rfl | rfl
    · exact hs.symm
    · rfl
  · have hl' : l = .protocol task.protocolName s ∨ l = .status s := by simpa using hl
    rcases hl' with rfl | rfl <;> rfl

theorem statusOf_eq {l l' : TaskList} (hl : Known l) (hl' : Known l') (he : listKey l = listKey l') :
    statusOf l = statusOf l' :=
  ((colon_inj (noColon_of_status _ hl.1) (noColon_of_status _ hl'.1)).mp he).2

/-- A value of the kind that belongs in the place. -/
def Kind (M : Prost) : Place → Bytes → Prop
  | .record taskId,payload => ∃ task, task.taskId = taskId ∧ payload = M.task.encode task
  | .list _,payload => ∃ list, payload = M.taskIdList.encode list
  | .latest _,payload => ∃ taskId, payload = M.task.encode { taskId := taskId }

theorem internal_inj {a b : String} : "_internal:" ++ a = "_internal:" ++ b ↔ a = b :=
  String.append_right_inj _

theorem list_of_listOf {u k : String} {task : Task} (hl : ListOf u task k) :
    ∃ l ∈ listsAt u task task.status, k = "_internal:" ++ listKey l := by
  have hkeys := listsAt_keys u task
  have hmem {key : String} (hin : key ∈ (listsAt u task task.status).map listKey) :
      ∃ l ∈ listsAt u task task.status, "_internal:" ++ key = "_internal:" ++ listKey l := by
    obtain ⟨l,hl,rfl⟩ := List.mem_map.mp hin
    exact ⟨l,hl,rfl⟩
  rcases hl with rfl | rfl
  · exact hmem (by rw [hkeys]; simp)
  · exact hmem (by rw [hkeys]; simp)

/-- The place that is known by a key, with the value kept there. -/
theorem place_of_kept {M : Prost} {u k : String} {site : Site} {payload : Bytes}
    (hk : Kept M u site k payload) : ∃ p, k = "_internal:" ++ key p ∧ Kind M p payload ∧
      (∀ id, p = .record id → ¬ Reserved id) ∧ (∀ l, p = .list l ∨ p = .latest l → Known l) := by
  have hrecord (hr : ∃ task, k = recordKey task.taskId ∧ payload = M.task.encode task ∧
      task.status ∈ statuses ∧ ¬ Reserved task.taskId) : ∃ p, k = "_internal:" ++ key p ∧
        Kind M p payload ∧ (∀ id, p = .record id → ¬ Reserved id) ∧
        (∀ l, p = .list l ∨ p = .latest l → Known l) := by
    obtain ⟨task,rfl,rfl,-,hres⟩ := hr
    refine ⟨.record task.taskId,rfl,⟨task,rfl,rfl⟩,fun id hid => ?_,fun l hl => ?_⟩
    · rwa [← Place.record.inj hid]
    · rcases hl with hl | hl <;> cases hl
  cases site with
  | list =>
    obtain ⟨task,list,hl,hs,rfl⟩ := hk
    obtain ⟨l,hmem,rfl⟩ := list_of_listOf hl
    refine ⟨.list l,rfl,⟨list,rfl⟩,nofun,fun l' hl' => ?_⟩
    rcases hl' with hl' | hl' <;> cases hl'
    exact known_of_listsAt hs hmem
  | latest =>
    obtain ⟨task,listKey',hl,hs,rfl,rfl⟩ := hk
    obtain ⟨l,hmem,rfl⟩ := list_of_listOf hl
    refine ⟨.latest l,String.append_assoc ..,⟨_,rfl⟩,nofun,fun l' hl' => ?_⟩
    rcases hl' with hl' | hl' <;> cases hl'
    exact known_of_listsAt hs hmem
  | _ => exact hrecord hk

theorem guarded_listKey (l : TaskList) : Guarded ("_internal:" ++ listKey l) := by
  cases l with
  | status s => exact .inl ⟨("status:" ++ s).toList,by simp [listKey,subject,statusOf]⟩
  | protocol name s => exact .inr ⟨(name ++ ":" ++ s).toList,by simp [listKey,subject,statusOf]⟩
  | started name role => exact .inr ⟨(name ++ ":" ++ role ++ ":started").toList,by
      simp [listKey,subject,statusOf]⟩

/-- As long as no task is admitted under the name of a status list, every place holds values of
its own kind. -/
theorem kind_of_read {D : Deployment} {c : TaskConfig} (hc : D.Reach c)
    (htidy : Everywhere (OnWrites Tidy) c.state.history) (i : ℕ) {u : String} (hu : NoColon u)
    {task : Task} (hid : ¬ Reserved task.taskId) {p : Place} (hp : p ∈ places u task)
    {payload : Bytes} (hread : c.state.shared.read i u ("_internal:" ++ key p) = some payload) :
    Kind D.prost p payload := by
  have hguarded : Guarded ("_internal:" ++ key p) := by
    rcases mem_places.mp hp with rfl | ⟨s,hs,l,hl,hp⟩
    · exact guarded_recordKey _
    · rcases hp with rfl | rfl
      · exact guarded_listKey l
      · show Guarded ("_internal:" ++ (listKey l ++ ":latest"))
        rw [← String.append_assoc]
        refine (guarded_listKey l).imp (fun hh => ?_) (fun hh => ?_)
        all_goals
          rw [String.toList_append]
          exact hh.trans (List.prefix_append _ _)
  rw [read_eq_stored hc hu hguarded] at hread
  obtain ⟨t,q,site,r,past,-,hw⟩ := write_of_stored hread
  obtain ⟨p',hkey,hkind,hrec,hknown⟩ := place_of_kept (everywhere_writes (kept hc htidy) hw)
  have hkey := internal_inj.mp hkey
  rcases mem_places.mp hp with rfl | ⟨s,hs,l,hl,hp⟩
  · cases p' with
    | record id =>
      obtain rfl := (String.append_right_inj _).mp hkey
      exact hkind
    | list l' => exact absurd hkey (record_ne_list hid (hknown l' (.inl rfl))).1
    | latest l' => exact absurd hkey (record_ne_list hid (hknown l' (.inr rfl))).2
  · have hl := known_of_listsAt hs hl
    rcases hp with rfl | rfl
    · cases p' with
      | record id => exact absurd hkey.symm (record_ne_list (hrec id rfl) hl).1
      | list l' => exact hkind
      | latest l' => exact absurd hkey (listKey_ne_latest hl)
    · cases p' with
      | record id => exact absurd hkey.symm (record_ne_list (hrec id rfl) hl).2
      | list l' => exact absurd hkey.symm (listKey_ne_latest (hknown l' (.inl rfl)))
      | latest l' => exact hkind

/-- The keys of two accepted tasks are apart exactly if their ids are not names of status lists
and their protocols and roles can be told apart. As long as no task with such an id is admitted,
every value that the server reads is of the kind that belongs under the key. -/
theorem keys_separated_iff (D : Deployment) (u : String) :
    (∀ task task' : Task, Separated u task task' ↔ Distinguishable u task task') ∧
    ∀ c : TaskConfig, D.Reach c → Everywhere (OnWrites Tidy) c.state.history → NoColon u →
      ∀ (i : ℕ) (task : Task), ¬ Reserved task.taskId → ∀ p ∈ places u task, ∀ payload,
        c.state.shared.read i u ("_internal:" ++ key p) = some payload → Kind D.prost p payload :=
  ⟨separated_iff u,fun _ hc htidy hu i _ hid _ hp _ hread => kind_of_read hc htidy i hu hid hp hread⟩

/-- A task is admitted whose id is the name of the status list in which it is to be kept. -/
def admitStatus : List Move := Move.settle 7 ++
  [.start 0 (.ofGuest 7 (sampleOffer (sampleTask "status:waiting" []) [])),.run 0 11]

def waiting : TaskCall → Option Task
  | .interCoreSyncTask task => some { task with status := "waiting" }
  | _ => none

def storesRecord (task : Task) : TaskAction → Bool
  | .op _ _ (.storageUpdate .admission u k payload) _ => decide (u = "07" ∧
      k = recordKey task.taskId ∧ payload = Prost.selfDelimiting.task.encode task)
  | _ => false

def readsList (l : TaskList) (payload : Bytes) : TaskAction → Bool
  | .op _ _ (.storageRead u k) (.ok payload') =>
    decide (u = "07" ∧ k = "_internal:" ++ listKey l ∧ payload' = payload)
  | _ => false

theorem keys_separated_iff_sample : Separated "07" (sampleTask "id" []) (sampleTask "id" []) ∧
    ∃ c : TaskConfig, Deployment.ideal.Reach c ∧ ∀ payload,
      c.state.shared.read 0 "07" ("_internal:" ++ key (.list (.status "waiting"))) = some payload →
      Kind Prost.selfDelimiting (.list (.status "waiting")) payload := by
  have hid : ¬ Reserved "id" := not_reserved_of_noColon (by decide)
  have hrun : (Play.moves (Move.settle 7 ++
        [.start 0 (.ofGuest 7 (sampleOffer (sampleTask "id" []) [])),.run 0 13]) {}).any fun p =>
      decide (Everywhere (OnWrites Tidy) p.history) := by
    decide +kernel
  obtain ⟨c,p,hc,hf,hp⟩ := Play.run hrun
  rw [decide_eq_true_eq,← hf.history] at hp
  refine ⟨((keys_separated_iff Deployment.ideal "07").1 _ _).mpr ⟨hid,hid,fun _ => ⟨rfl,rfl⟩⟩,c,hc,?_⟩
  exact (keys_separated_iff Deployment.ideal "07").2 c hc hp (by decide) 0 (sampleTask "id" []) hid _
    (by decide)

/-- A task can be admitted whose record takes the place of a list, and then the server reads the
record as a list, as which it cannot be decoded. -/
theorem record_read_as_list : ∃ (c : TaskConfig) (t t' : ℕ) (q q' : Request) (task : Task)
    (r : Except UpdateError String), Deployment.ideal.Reach c ∧
    .op t q (.storageUpdate .admission "07" (recordKey task.taskId)
      (Prost.selfDelimiting.task.encode task)) r ∈ c.state.history ∧
    ¬ Separated "07" task task ∧
    .op t' q' (.storageRead "07" ("_internal:" ++ listKey (.status "waiting")))
      (.ok (Prost.selfDelimiting.task.encode task)) ∈ c.state.history ∧
    Prost.selfDelimiting.taskIdList.decode (Prost.selfDelimiting.task.encode task) = none := by
  have hrun : (Play.moves admitStatus {}).any fun p =>
      (waiting (sampleOffer (sampleTask "status:waiting" []) [])).any fun task =>
        p.history.any (storesRecord task) &&
        p.history.any (readsList (.status "waiting") (Prost.selfDelimiting.task.encode task)) &&
        decide (Prost.selfDelimiting.taskIdList.decode (Prost.selfDelimiting.task.encode task) = none) &&
        decide (task.taskId = "status:waiting") := by
    decide +kernel
  obtain ⟨c,p,hc,hf,hp⟩ := Play.run hrun
  obtain ⟨task,-,htask⟩ := (Option.any_eq_true _ _).mp hp
  simp only [Bool.and_eq_true,decide_eq_true_eq,List.any_eq_true] at htask
  obtain ⟨⟨⟨⟨a,ha,hstores⟩,b,hb,hreads⟩,hdecode⟩,hid⟩ := htask
  rw [← hf.history] at ha hb
  unfold storesRecord at hstores
  split at hstores
  · next t q u k payload r =>
    obtain ⟨rfl,rfl,rfl⟩ := of_decide_eq_true hstores
    unfold readsList at hreads
    split at hreads
    · next t' q' u' k' payload' =>
      obtain ⟨rfl,rfl,rfl⟩ := of_decide_eq_true hreads
      refine ⟨c,t,t',q,q',task,r,hc,ha,fun hsep => ?_,hb,hdecode⟩
      refine ((separated_iff "07" task task).mp hsep).1 ⟨"waiting",by decide,.inl ?_⟩
      rw [hid]
      rfl
    · cases hreads
  · cases hstores

end TaskKeys
end CoLinkServer
