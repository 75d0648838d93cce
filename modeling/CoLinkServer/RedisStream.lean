import CoLinkServer.DirectExchange
import CoLinkServer.SelfDelimiting

/-! The message queue over Redis. Its queues are streams; which queue is bound to which key is kept
in a routing table of the server. -/
namespace CoLinkServer

/-- The entries of a stream, oldest first, and its consumer groups. -/
structure Stream where
  entries : List Bytes
  groups : List String
deriving DecidableEq

/-- What Redis stores. -/
abbrev Redis := String → Option Stream

namespace Redis

/-- `XGROUP CREATE key group $ MKSTREAM` -/
def xgroupCreateMkstream (redis : Redis) (key group : String) : Except String Unit × Redis :=
  match redis key with
  | none => (.ok (),Function.update redis key (some ⟨[],[group]⟩))
  | some stream =>
    if group ∈ stream.groups then
      (.error "BUSYGROUP: Consumer Group name already exists",redis)
    else (.ok (),Function.update redis key (some { stream with groups := group :: stream.groups }))

/-- `XGROUP DESTROY key group` -/
def xgroupDestroy (redis : Redis) (key group : String) : Except String Unit × Redis :=
  match redis key with
  | none => (.error "ERR: The XGROUP subcommand requires the key to exist.",redis)
  | some stream => (.ok (),Function.update redis key
      (some { stream with groups := stream.groups.filter (· ≠ group) }))

/-- `DEL key` -/
def del (redis : Redis) (key : String) : Redis := Function.update redis key none

/-- `XADD key * payload …`, which creates a missing stream. -/
def xadd (redis : Redis) (key : String) (payload : Bytes) : Redis :=
  Function.update redis key (some (match redis key with
    | none => ⟨[payload],[]⟩
    | some stream => { stream with entries := stream.entries ++ [payload] }))

end Redis

/-- `username` reads the user name out of a URI. -/
structure RedisStream where
  redis : Redis
  routingTable : String → Option (List String)

namespace RedisStream

open DirectExchange (Exchange)

variable (username : String → Except String String)

/-- `generated` is the name that the password generator comes up with. -/
def createQueue (s : RedisStream) (userUri queueName generated : String) :
    Except String String × RedisStream :=
  let queueName := if queueName = "" then generated else queueName
  match username userUri with
  | .error e => (.error ("URI Parse Error: " ++ e),s)
  | .ok userName =>
    let queueName := userName ++ ":" ++ queueName
    match s.redis.xgroupCreateMkstream queueName queueName with
    | (.ok (),redis) => (.ok queueName,{ s with redis := redis })
    | (.error e,redis) =>
      (.error ("RedisStream Group Creation Error: " ++ e),{ s with redis := redis })

def deleteQueue (s : RedisStream) (_userUri queueName : String) : Except String Unit × RedisStream :=
  match s.redis.xgroupDestroy queueName queueName with
  | (.ok (),redis) => (.ok (),{ s with redis := redis.del queueName })
  | (.error e,redis) =>
    (.error ("RedisStream Group Deletion Error: " ++ e),{ s with redis := redis })

def queueBind (s : RedisStream) (_userUri queueName key : String) :
    Except String Unit × RedisStream :=
  let table := if (s.routingTable key).isNone then Function.update s.routingTable key (some [])
    else s.routingTable
  (.ok (),{ s with routingTable :=
    Function.update table key ((table key).map (· ++ [queueName])) })

def publishMessage (s : RedisStream) (_userUri key : String) (payload : Bytes) :
    Except String Unit × RedisStream :=
  match s.routingTable key with
  | none => (.ok (),s)
  | some queueNames =>
    let redis := queueNames.foldl (fun redis queueName => redis.xadd queueName payload) s.redis
    (.ok (),{ s with redis := redis })

/-- The calls of the trait that create, remove and use queues. -/
inductive Call
  | createQueue (userUri queueName generated : String)
  | deleteQueue (userUri queueName : String)
  | queueBind (userUri queueName key : String)
  | publishMessage (userUri key : String) (payload : Bytes)
deriving DecidableEq

def perform (s : RedisStream) : Call → RedisStream
  | .createQueue userUri queueName generated => (createQueue username s userUri queueName generated).2
  | .deleteQueue userUri queueName => (s.deleteQueue userUri queueName).2
  | .queueBind userUri queueName key => (s.queueBind userUri queueName key).2
  | .publishMessage userUri key payload => (s.publishMessage userUri key payload).2

/-- Nothing is stored and nothing is bound. -/
def new : RedisStream := ⟨fun _ => none,fun _ => none⟩

def run (calls : List Call) : RedisStream := calls.foldl (perform username) new

/-- What a call asks of the exchange; a call with a malformed URI asks for nothing. -/
def meaning : Call → List (DirectExchange.Call String String Bytes)
  | .createQueue userUri queueName generated =>
    match username userUri with
    | .error _ => []
    | .ok userName => [.declare (userName ++ ":" ++ (if queueName = "" then generated else queueName))]
  | .deleteQueue _ queueName => [.delete queueName]
  | .queueBind _ queueName key => [.bind queueName key]
  | .publishMessage _ key payload => [.publish key payload]

def exchange (calls : List Call) : Exchange String String Bytes :=
  DirectExchange.run (calls.flatMap (meaning username))

/-- The same queues exist, and hold the same messages. -/
def Agrees (s : RedisStream) (x : Exchange String String Bytes) : Prop :=
  ∀ queueName, (s.redis queueName).map (·.entries) = x.queues queueName

/-- At every moment the streams are the queues of the exchange. -/
def Implements (calls : List Call) : Prop :=
  ∀ before, before <+: calls → Agrees (run username before) (exchange username before)

/-- The queues in the calls that bind a queue to the key. -/
def boundTo (key : String) (calls : List Call) : List String :=
  calls.filterMap fun c => match c with
    | .queueBind _ queueName key' => if key' = key then some queueName else none
    | _ => none

/-- Every queue that has been bound to the key has been bound once, while it existed, and has not
been removed since. -/
def Tidy (calls : List Call) (key : String) : Prop :=
  (boundTo key calls).Nodup ∧
    ∀ queueName ∈ boundTo key calls, (queueName,key) ∈ (exchange username calls).bindings

section Runs

variable {username} {calls : List Call} {s : RedisStream} {x : Exchange String String Bytes}

@[simp] theorem run_concat (calls : List Call) (c : Call) :
    run username (calls ++ [c]) = perform username (run username calls) c := by
  rw [run,List.foldl_concat]
  rfl

@[simp] theorem boundTo_concat (key : String) (calls : List Call) (c : Call) :
    boundTo key (calls ++ [c]) = boundTo key calls ++ boundTo key [c] := List.filterMap_append

/-- The routing table lists a queue as often as it has been bound. -/
theorem routingTable_run (key : String) (calls : List Call) :
    ((run username calls).routingTable key).getD [] = boundTo key calls := by
  induction calls using List.reverseRecOn with
  | nil => rfl
  | append_singleton calls c ih =>
    rw [run_concat,boundTo_concat,← ih]
    cases c with
    | createQueue userUri queueName generated =>
      simp only [perform,createQueue,boundTo,List.filterMap_cons_none,List.filterMap_nil,List.append_nil]
      repeat' split
      all_goals rfl
    | deleteQueue userUri queueName =>
      simp only [perform,deleteQueue,boundTo,List.filterMap_cons_none,List.filterMap_nil,List.append_nil]
      split <;> rfl
    | queueBind userUri queueName key' =>
      by_cases hk : key' = key
      · subst hk
        cases ht : (run username calls).routingTable key' <;> simp [perform,queueBind,boundTo,ht]
      · have hk' : key ≠ key' := Ne.symm hk
        simp only [perform,queueBind,boundTo,List.filterMap_cons,if_neg hk,List.filterMap_nil,
          List.append_nil,Function.update_of_ne hk']
        split_ifs <;> simp [hk']
    | publishMessage userUri key' payload =>
      simp only [perform,publishMessage,boundTo,List.filterMap_cons_none,List.filterMap_nil,
        List.append_nil]
      split <;> rfl

/-- A payload is appended as often as the queue is listed. -/
theorem entries_foldl_xadd (queueNames : List String) (redis : Redis) (payload : Bytes)
    (queueName : String) :
    ((queueNames.foldl (fun redis queueName => redis.xadd queueName payload) redis) queueName).map
        (·.entries) =
      if queueName ∈ queueNames then
        some (((redis queueName).map (·.entries)).getD [] ++
          List.replicate (queueNames.count queueName) payload)
      else (redis queueName).map (·.entries) := by
  induction queueNames generalizing redis with
  | nil => rfl
  | cons name names ih =>
    rw [List.foldl_cons,ih]
    by_cases hn : queueName = name
    · subst hn
      have hadd : ((redis.xadd queueName payload) queueName).map (·.entries) =
          some (((redis queueName).map (·.entries)).getD [] ++ [payload]) := by
        cases hr : redis queueName <;> simp [Redis.xadd,hr]
      rw [hadd]
      by_cases hm : queueName ∈ names
      · simp [hm,List.replicate_succ]
      · simp [hm,List.count_eq_zero.mpr hm]
    · have hother : (redis.xadd name payload) queueName = redis queueName := by
        simp [Redis.xadd,hn]
      have hcount : (name :: names).count queueName = names.count queueName :=
        List.count_cons_of_ne (Ne.symm hn)
      rw [hother,hcount]
      simp [hn]

theorem exchange_concat (calls : List Call) (c : Call) : exchange username (calls ++ [c]) =
    (meaning username c).foldl DirectExchange.perform (exchange username calls) := by
  rw [exchange,List.flatMap_append,DirectExchange.run,List.foldl_append,List.flatMap_singleton]
  rfl

theorem mem_boundTo_of_binding {queueName key : String}
    (h : (queueName,key) ∈ (exchange username calls).bindings) : queueName ∈ boundTo key calls := by
  obtain ⟨before,after,he,-,-⟩ := (DirectExchange.mem_bindings_iff _ _ _).mp h
  have hmem : DirectExchange.Call.bind queueName key ∈ calls.flatMap (meaning username) := by simp [he]
  obtain ⟨c,hc,hm⟩ := List.mem_flatMap.mp hmem
  refine List.mem_filterMap.mpr ⟨c,hc,?_⟩
  cases c with
  | createQueue userUri name generated =>
    simp only [meaning] at hm
    split at hm <;> simp at hm
  | deleteQueue userUri name => simp [meaning] at hm
  | queueBind userUri name key' =>
    simp only [meaning,List.mem_singleton,DirectExchange.Call.bind.injEq] at hm
    simp [hm.1,hm.2]
  | publishMessage userUri key' payload => simp [meaning] at hm

theorem entries_xgroupCreateMkstream (redis : Redis) (created group name : String) :
    ((redis.xgroupCreateMkstream created group).2 name).map (·.entries) =
      if name = created then some (((redis created).map (·.entries)).getD [])
      else (redis name).map (·.entries) := by
  unfold Redis.xgroupCreateMkstream
  cases hr : redis created with
  | none => by_cases hn : name = created <;> simp [hn]
  | some stream =>
    dsimp only
    by_cases hn : name = created
    · subst hn
      split_ifs <;> simp [hr]
    · split_ifs <;> simp [hn]

theorem createQueue_snd (s : RedisStream) (userUri queueName generated : String) {userName : String}
    (hu : username userUri = .ok userName) :
    (createQueue username s userUri queueName generated).2.redis =
      (s.redis.xgroupCreateMkstream
        (userName ++ ":" ++ (if queueName = "" then generated else queueName))
        (userName ++ ":" ++ (if queueName = "" then generated else queueName))).2 := by
  simp only [createQueue,hu]
  split <;> next h => rw [h]

theorem agrees_createQueue (h : Agrees s x) (userUri queueName generated : String) :
    Agrees (perform username s (.createQueue userUri queueName generated))
      ((meaning username (.createQueue userUri queueName generated)).foldl
        DirectExchange.perform x) := by
  intro name
  cases hu : username userUri with
  | error e =>
    simp only [perform,createQueue,meaning,hu,List.foldl_nil]
    exact h name
  | ok userName =>
    simp only [perform,createQueue_snd s userUri queueName generated hu,entries_xgroupCreateMkstream,
      meaning,hu,List.foldl_cons,List.foldl_nil,DirectExchange.perform]
    generalize userName ++ ":" ++ (if queueName = "" then generated else queueName) = created
    by_cases hn : name = created
    · rw [if_pos hn,hn,Function.update_self,h created]
    · rw [if_neg hn,Function.update_of_ne hn,h name]

theorem agrees_deleteQueue (h : Agrees s x) (userUri queueName : String) :
    Agrees (perform username s (.deleteQueue userUri queueName))
      ((meaning username (.deleteQueue userUri queueName)).foldl DirectExchange.perform x) := by
  intro name
  have hdeleted := h queueName
  simp only [perform,deleteQueue,meaning,List.foldl_cons,List.foldl_nil,DirectExchange.perform,
    Redis.xgroupDestroy]
  by_cases hn : name = queueName
  · subst hn
    cases hr : s.redis name <;> simp [hr,Redis.del]
  · rw [Function.update_of_ne hn,← h name]
    cases s.redis queueName <;> simp [Redis.del,hn]

theorem agrees_queueBind (h : Agrees s x) (userUri queueName key : String) :
    Agrees (perform username s (.queueBind userUri queueName key))
      ((meaning username (.queueBind userUri queueName key)).foldl DirectExchange.perform x) := by
  intro name
  simp only [perform,queueBind,meaning,List.foldl_cons,List.foldl_nil,DirectExchange.perform]
  split_ifs <;> exact h name

/-- Publishing goes well exactly if the table lists what is bound, and nothing twice. -/
theorem agrees_publishMessage (h : Agrees (run username calls) (exchange username calls))
    (userUri key : String) (payload : Bytes) :
    Agrees (run username (calls ++ [.publishMessage userUri key payload]))
        (exchange username (calls ++ [.publishMessage userUri key payload])) ↔
      Tidy username calls key := by
  have hredis : (run username (calls ++ [.publishMessage userUri key payload])).redis =
      (boundTo key calls).foldl (fun redis queueName => redis.xadd queueName payload)
        (run username calls).redis := by
    rw [run_concat,← @routingTable_run username key calls]
    cases ht : (run username calls).routingTable key <;> simp [perform,publishMessage,ht]
  have hafter (queueName : String) :
      ((run username (calls ++ [.publishMessage userUri key payload])).redis queueName).map (·.entries) =
        if queueName ∈ boundTo key calls then
          some ((((exchange username calls).queues queueName).getD []) ++
            List.replicate ((boundTo key calls).count queueName) payload)
        else (exchange username calls).queues queueName := by
    rw [hredis,entries_foldl_xadd,h queueName]
  have hmeant (queueName : String) :
      (exchange username (calls ++ [.publishMessage userUri key payload])).queues queueName =
        if (queueName,key) ∈ (exchange username calls).bindings then
          ((exchange username calls).queues queueName).map (· ++ [payload])
        else (exchange username calls).queues queueName := by
    rw [exchange_concat]
    rfl
  constructor
  · intro hagrees
    have hlisted (queueName : String) (hq : queueName ∈ boundTo key calls) :
        (queueName,key) ∈ (exchange username calls).bindings ∧
          (boundTo key calls).count queueName = 1 := by
      have he := hagrees queueName
      rw [hafter,if_pos hq,hmeant] at he
      have hpos := List.count_pos_iff.mpr hq
      cases hx : (exchange username calls).queues queueName with
      | none => split_ifs at he <;> simp [hx] at he
      | some entries =>
        split_ifs at he with hb
        · refine ⟨hb,?_⟩
          rw [hx] at he
          have hlength := congrArg List.length (Option.some.inj he)
          simp only [Option.getD_some,List.length_append,List.length_replicate,List.length_singleton] at hlength
          omega
        · rw [hx] at he
          have hlength := congrArg List.length (Option.some.inj he)
          simp only [Option.getD_some,List.length_append,List.length_replicate] at hlength
          omega
    refine ⟨List.nodup_iff_count_le_one.mpr fun queueName => ?_,fun queueName hq => (hlisted _ hq).1⟩
    by_cases hq : queueName ∈ boundTo key calls
    · exact (hlisted _ hq).2.le
    · rw [List.count_eq_zero.mpr hq]
      exact Nat.zero_le 1
  · rintro ⟨hnodup,hbound⟩ queueName
    rw [hafter,hmeant]
    by_cases hq : queueName ∈ boundTo key calls
    · have hb := hbound queueName hq
      obtain ⟨entries,hx⟩ := Option.isSome_iff_exists.mp (DirectExchange.exists_of_bound _ hb)
      rw [if_pos hq,if_pos hb,List.count_eq_one_of_mem hnodup hq]
      rw [show (exchange username calls).queues queueName = some entries from hx]
      rfl
    · rw [if_neg hq,if_neg fun hb => hq (mem_boundTo_of_binding hb)]

theorem agrees_new : Agrees (run username []) (exchange username []) := fun _ => rfl

end Runs

/-- The implementation is a direct exchange in exactly those runs in which every message is published
under a key whose queues have been bound once, while they existed, and have not been removed. -/
theorem implements_iff (calls : List Call) : Implements username calls ↔
    ∀ before userUri key payload after,
      calls = before ++ .publishMessage userUri key payload :: after → Tidy username before key := by
  constructor
  · rintro h before userUri key payload after rfl
    exact (agrees_publishMessage (h before (List.prefix_append _ _)) userUri key payload).mp
      (h _ ⟨after,by simp⟩)
  · intro h before
    induction before using List.reverseRecOn with
    | nil => exact fun _ => agrees_new
    | append_singleton before c ih =>
      intro hprefix
      have hbefore := ih ((List.prefix_append _ _).trans hprefix)
      obtain ⟨after,rfl⟩ := hprefix
      cases c with
      | createQueue userUri queueName generated =>
        rw [run_concat,exchange_concat]
        exact agrees_createQueue hbefore _ _ _
      | deleteQueue userUri queueName =>
        rw [run_concat,exchange_concat]
        exact agrees_deleteQueue hbefore _ _
      | queueBind userUri queueName key =>
        rw [run_concat,exchange_concat]
        exact agrees_queueBind hbefore _ _ _
      | publishMessage userUri key payload =>
        exact (agrees_publishMessage hbefore _ _ _).mpr (h before userUri key payload after (by simp))

/-- A message recreates a queue that has been removed, and arrives twice in one that has been bound
twice. -/
theorem not_implements :
    ¬ Implements (fun _ => .ok "alice") [.createQueue "redis://alice@mq" "q" "",
        .queueBind "redis://alice@mq" "alice:q" "alice::key",.deleteQueue "redis://alice@mq" "alice:q",
        .publishMessage "redis://mq" "alice::key" [1]] ∧
      ¬ Implements (fun _ => .ok "alice") [.createQueue "redis://alice@mq" "q" "",
        .queueBind "redis://alice@mq" "alice:q" "alice::key",
        .queueBind "redis://alice@mq" "alice:q" "alice::key",
        .publishMessage "redis://mq" "alice::key" [1]] := by
  constructor
  · intro h
    have hq := h _ List.prefix_rfl "alice:q"
    revert hq
    decide +kernel
  · intro h
    have hq := h _ List.prefix_rfl "alice:q"
    revert hq
    decide +kernel

end RedisStream
end CoLinkServer
