import CoLinkServer.StorageKeys
import CoLinkServer.VersionedMap
import Mathlib.Data.Finset.Basic
import Mathlib.Algebra.Group.Int.Defs
import Mathlib.Data.List.AList

/-! The in-memory storage: three hash maps keyed by strings, and the operations on them.
The clock reading of a call is an argument; a call returns the maps it leaves behind, also
when it fails. -/
namespace CoLinkServer

/-- `prefixToKeyPaths` holds two sets, the first for the latest key paths of a directory and
the second for all of them. -/
structure StorageMap (V : Type) where
  keyPathToValue : String → Option V
  keyNameToTimestamp : String → Option ℤ
  prefixToKeyPaths : String → Option (Finset String × Finset String)

namespace BasicStorage

variable {V : Type}

def empty : StorageMap V := ⟨fun _ => none,fun _ => none,fun _ => none⟩

/-- `entry(dir).or_insert((HashSet::new(),HashSet::new()))`, read as a pair of sets. -/
def prefixSet (maps : StorageMap V) (dir : String) : Finset String × Finset String :=
  (maps.prefixToKeyPaths dir).getD (∅,∅)

def insertPath (maps : StorageMap V) (dir path : String) : StorageMap V :=
  let sets := prefixSet maps dir
  { maps with prefixToKeyPaths :=
      Function.update maps.prefixToKeyPaths dir (some (insert path sets.1,insert path sets.2)) }

def removeLatest (maps : StorageMap V) (dir path : String) : StorageMap V :=
  let sets := prefixSet maps dir
  { maps with prefixToKeyPaths :=
      Function.update maps.prefixToKeyPaths dir (some (sets.1.erase path,sets.2)) }

def maintainLoop (maps : StorageMap V) (currentPath nextPath : String) :
    List String → StorageMap V
  | [] => maps
  | split :: splits => maintainLoop (insertPath maps currentPath (nextPath ++ "@0"))
      (nextPath ++ ":") (nextPath ++ ":" ++ split) splits

def maintainPrefixesAlongPath (maps : StorageMap V) (userId keyName : String) : StorageMap V :=
  match (keyName.toList.splitOn ':').map String.ofList with
  | [] => maps
  | split :: splits => maintainLoop maps (userId ++ "::") (userId ++ "::" ++ split) splits

/-- The two insertions with which `create` and `update` set a new version. -/
def setVersion (maps : StorageMap V) (userId keyName : String) (value : V) (timestamp : ℤ) :
    StorageMap V :=
  { maps with
    keyPathToValue :=
      Function.update maps.keyPathToValue (keyPath userId keyName timestamp) (some value)
    keyNameToTimestamp :=
      Function.update maps.keyNameToTimestamp (userIdKeyName userId keyName) (some timestamp) }

def create (maps : StorageMap V) (userId keyName : String) (value : V) (timestampNanos : ℤ) :
    Except String String × StorageMap V :=
  let keyPathCreated := keyPath userId keyName timestampNanos
  let userIdKeyName := userIdKeyName userId keyName
  let store (maps : StorageMap V) : Except String String × StorageMap V :=
    let maps := setVersion maps userId keyName value timestampNanos
    (.ok keyPathCreated,insertPath maps (userId ++ "::" ++ getPrefix keyName) keyPathCreated)
  match maps.keyNameToTimestamp userIdKeyName with
  | some current =>
    if (maps.keyPathToValue (atTimestamp userIdKeyName current)).isSome then
      (.error ("Key name already exists: " ++ userIdKeyName),maps)
    else store maps
  | none => store (maintainPrefixesAlongPath maps userId keyName)

def update (maps : StorageMap V) (userId keyName : String) (value : V) (timestampNanos : ℤ) :
    Except String String × StorageMap V :=
  let keyPathCreated := keyPath userId keyName timestampNanos
  let userIdKeyName := userIdKeyName userId keyName
  let oldTimestamp := (maps.keyNameToTimestamp userIdKeyName).getD 0
  let maps := setVersion maps userId keyName value timestampNanos
  let maps := if oldTimestamp = 0 then maintainPrefixesAlongPath maps userId keyName else maps
  let dir := userId ++ "::" ++ getPrefix keyName
  let maps := if oldTimestamp ≠ 0 ∧ atTimestamp userIdKeyName oldTimestamp ∈ (prefixSet maps dir).1
    then removeLatest maps dir (atTimestamp userIdKeyName oldTimestamp) else maps
  (.ok keyPathCreated,insertPath maps dir keyPathCreated)

/-- Unlike the other two, `delete` reads the clock in seconds. -/
def delete (maps : StorageMap V) (userId keyName : String) (timestampNanos : ℤ) :
    Except String String × StorageMap V :=
  let timestamp := timestampNanos / 1000000000
  let userIdKeyName := userIdKeyName userId keyName
  match maps.keyNameToTimestamp userIdKeyName with
  | some oldTimestamp =>
    if (maps.keyPathToValue (atTimestamp userIdKeyName oldTimestamp)).isSome then
      let maps := { maps with
        keyNameToTimestamp := Function.update maps.keyNameToTimestamp userIdKeyName (some timestamp) }
      let dir := userId ++ "::" ++ getPrefix keyName
      let maps := if (maps.prefixToKeyPaths dir).isSome ∧ oldTimestamp ≠ 0 ∧
          atTimestamp userIdKeyName oldTimestamp ∈ (prefixSet maps dir).1
        then removeLatest maps dir (atTimestamp userIdKeyName oldTimestamp) else maps
      (.ok (keyPath userId keyName timestamp),maps)
    else (.error ("Key name not found: " ++ keyName),maps)
  | none => (.error ("Key name not found: " ++ keyName),maps)

/-- The result of a read, with the order of a hash map left open. -/
abbrev Entries (V : Type) := AList fun _ : String => V

def readFromKeyPaths (maps : StorageMap V) (keyPaths : List String) : Except String (Entries V) :=
  keyPaths.foldlM (fun result keyPath =>
    match maps.keyPathToValue keyPath with
    | some v => .ok (result.insert keyPath v)
    | none => .error ("Key path not found: " ++ keyPath)) ∅

def readFromKeyNames (maps : StorageMap V) (userId : String) (keyNames : List String) :
    Except String (Entries V) :=
  keyNames.foldlM (fun result keyName =>
    match maps.keyNameToTimestamp (userIdKeyName userId keyName) with
    | none => .error ("Key name not found: " ++ keyName)
    | some timestamp =>
      match maps.keyPathToValue (keyPath userId keyName timestamp) with
      | some v => .ok (result.insert (keyPath userId keyName timestamp) v)
      | none => .error ("Entry have been deleted: " ++ keyPath userId keyName timestamp)) ∅

/-- Read one key name and take the only entry of the result. -/
def readKeyName (maps : StorageMap V) (userId keyName : String) : Except String V :=
  match readFromKeyNames maps userId [keyName] with
  | .error e => .error e
  | .ok entries => match entries.entries.head? with
    | some entry => .ok entry.2
    | none => .error "empty"

/-- The set whose elements `list_keys` returns in an arbitrary order. -/
def listKeys (maps : StorageMap V) (dir : String) (includeHistory : Bool) : Finset String :=
  match maps.prefixToKeyPaths (dir ++ ":") with
  | none => ∅
  | some sets => if includeHistory then sets.2 else sets.1

inductive Call (V : Type)
  | create (userId keyName : String) (value : V)
  | update (userId keyName : String) (value : V)
  | delete (userId keyName : String)

def Call.userId : Call V → String
  | .create u _ _ => u
  | .update u _ _ => u
  | .delete u _ => u

def perform (maps : StorageMap V) (now : ℤ) : Call V → Except String String × StorageMap V
  | .create u k v => create maps u k v now
  | .update u k v => update maps u k v now
  | .delete u k => delete maps u k now

structure Done (V : Type) where
  now : ℤ
  call : Call V
  result : Except String String

def run (calls : List (ℤ × Call V)) : StorageMap V × List (Done V) :=
  calls.foldl (fun (maps,log) (now,call) =>
    let (result,maps) := perform maps now call
    (maps,log ++ [⟨now,call,result⟩])) (empty,[])

theorem run_concat (calls : List (ℤ × Call V)) (now : ℤ) (call : Call V) :
    run (calls ++ [(now,call)]) =
      ((perform (run calls).1 now call).2,
        (run calls).2 ++ [⟨now,call,(perform (run calls).1 now call).1⟩]) := by
  simp [run]

def value (maps : StorageMap V) (userId keyName : String) : Option V :=
  (maps.keyNameToTimestamp (userIdKeyName userId keyName)).bind fun timestamp =>
    maps.keyPathToValue (keyPath userId keyName timestamp)

theorem value_empty (u k : String) : value (V := V) empty u k = none := rfl

theorem readFromKeyNames_single (maps : StorageMap V) (u k : String) :
    (∃ v path, value maps u k = some v ∧
      readFromKeyNames maps u [k] = .ok (AList.insert path v ∅)) ∨
    (value maps u k = none ∧ ∃ e, readFromKeyNames maps u [k] = .error e) := by
  cases ht : maps.keyNameToTimestamp (userIdKeyName u k) with
  | none =>
    refine .inr ⟨by simp [value,ht],"Key name not found: " ++ k,?_⟩
    simp [readFromKeyNames,ht]
  | some t =>
    cases hv : maps.keyPathToValue (keyPath u k t) with
    | none =>
      refine .inr ⟨by simp [value,ht,hv],"Entry have been deleted: " ++ keyPath u k t,?_⟩
      simp [readFromKeyNames,ht,hv]
    | some v =>
      refine .inl ⟨v,keyPath u k t,by simp [value,ht,hv],?_⟩
      simp [readFromKeyNames,ht,hv]

theorem readKeyName_eq_ok {maps : StorageMap V} {u k : String} {v : V} :
    readKeyName maps u k = .ok v ↔ value maps u k = some v := by
  rcases readFromKeyNames_single maps u k with ⟨w,path,hw,he⟩ | ⟨hn,e,he⟩
  · simp [readKeyName,he,hw,AList.insert_empty]
  · simp [readKeyName,he,hn]

theorem readFromKeyNames_isOk {maps : StorageMap V} {u k : String} :
    (readFromKeyNames maps u [k]).toBool = (value maps u k).isSome := by
  rcases readFromKeyNames_single maps u k with ⟨w,path,hw,he⟩ | ⟨hn,e,he⟩
  · simp [he,hw,Except.toBool]
  · simp [he,hn,Except.toBool]

@[simp] theorem maintainLoop_value (maps : StorageMap V) (cur next : String) (splits : List String) :
    (maintainLoop maps cur next splits).keyPathToValue = maps.keyPathToValue := by
  induction splits generalizing maps cur next with
  | nil => rfl
  | cons s splits ih => rw [maintainLoop,ih]; rfl

@[simp] theorem maintainLoop_timestamp (maps : StorageMap V) (cur next : String)
    (splits : List String) :
    (maintainLoop maps cur next splits).keyNameToTimestamp = maps.keyNameToTimestamp := by
  induction splits generalizing maps cur next with
  | nil => rfl
  | cons s splits ih => rw [maintainLoop,ih]; rfl

@[simp] theorem maintain_value (maps : StorageMap V) (u k : String) :
    (maintainPrefixesAlongPath maps u k).keyPathToValue = maps.keyPathToValue := by
  unfold maintainPrefixesAlongPath
  split <;> simp

@[simp] theorem maintain_timestamp (maps : StorageMap V) (u k : String) :
    (maintainPrefixesAlongPath maps u k).keyNameToTimestamp = maps.keyNameToTimestamp := by
  unfold maintainPrefixesAlongPath
  split <;> simp

section Frame

variable {u k u' k' : String}

theorem value_setVersion_self (maps : StorageMap V) (v : V) (t : ℤ) :
    value (setVersion maps u k v t) u k = some v := by simp [value,setVersion]

theorem value_setVersion_of_ne (maps : StorageMap V) (hu : NoColon u) (hu' : NoColon u')
    (hne : ¬(u' = u ∧ k' = k)) (v : V) (t : ℤ) :
    value (setVersion maps u k v t) u' k' = value maps u' k' := by
  have hname : userIdKeyName u' k' ≠ userIdKeyName u k := fun h =>
    hne ((userIdKeyName_inj hu' hu).mp h)
  have hpath (t' : ℤ) : keyPath u' k' t' ≠ keyPath u k t := fun h =>
    hne ⟨((keyPath_inj hu' hu).mp h).1,((keyPath_inj hu' hu).mp h).2.1⟩
  simp [value,setVersion,hname,hpath]

theorem update_maps (maps : StorageMap V) (v : V) (now : ℤ) :
    (update maps u k v now).2.keyPathToValue = (setVersion maps u k v now).keyPathToValue ∧
    (update maps u k v now).2.keyNameToTimestamp =
      (setVersion maps u k v now).keyNameToTimestamp := by
  simp only [update,insertPath,removeLatest]
  split_ifs <;> simp

theorem value_update (maps : StorageMap V) (v : V) (now : ℤ) :
    value (update maps u k v now).2 u' k' = value (setVersion maps u k v now) u' k' := by
  rw [value,value,(update_maps maps v now).1,(update_maps maps v now).2]

theorem value_update_self (maps : StorageMap V) (v : V) (now : ℤ) :
    value (update maps u k v now).2 u k = some v := by
  rw [value_update,value_setVersion_self]

theorem value_update_of_ne (maps : StorageMap V) (hu : NoColon u) (hu' : NoColon u')
    (hne : ¬(u' = u ∧ k' = k)) (v : V) (now : ℤ) :
    value (update maps u k v now).2 u' k' = value maps u' k' := by
  rw [value_update,value_setVersion_of_ne maps hu hu' hne]

theorem create_maps (maps : StorageMap V) (v : V) (now : ℤ) :
    (create maps u k v now).2 = maps ∨
    ((create maps u k v now).2.keyPathToValue = (setVersion maps u k v now).keyPathToValue ∧
      (create maps u k v now).2.keyNameToTimestamp =
        (setVersion maps u k v now).keyNameToTimestamp) := by
  simp only [create]
  split
  · split_ifs
    · exact .inl rfl
    · exact .inr ⟨rfl,rfl⟩
  · exact .inr (by simp [insertPath,setVersion])

theorem delete_maps (maps : StorageMap V) (now : ℤ) :
    (delete maps u k now).2.keyPathToValue = maps.keyPathToValue ∧
    ∀ x ≠ userIdKeyName u k,
      (delete maps u k now).2.keyNameToTimestamp x = maps.keyNameToTimestamp x := by
  simp only [delete,removeLatest]
  split
  · split_ifs <;> simp +contextual
  · simp

end Frame

def Call.keyName : Call V → String
  | .create _ k _ => k
  | .update _ k _ => k
  | .delete _ k => k

theorem value_perform_of_ne (maps : StorageMap V) {call : Call V} {u' k' : String}
    (hu : NoColon call.userId) (hu' : NoColon u') (hne : ¬(u' = call.userId ∧ k' = call.keyName))
    (now : ℤ) : value (perform maps now call).2 u' k' = value maps u' k' := by
  cases call with
  | create u k v =>
    rcases create_maps (u := u) (k := k) maps v now with h | ⟨hv,ht⟩
    · rw [perform,h]
    · rw [perform,value,hv,ht]
      exact value_setVersion_of_ne maps hu hu' hne v now
  | update u k v => exact value_update_of_ne maps hu hu' hne v now
  | delete u k =>
    have hname : userIdKeyName u' k' ≠ userIdKeyName u k := fun h =>
      hne ((userIdKeyName_inj hu' hu).mp h)
    have hd := delete_maps (u := u) (k := k) maps now
    rw [perform,value,hd.1,hd.2 _ hname]
    rfl

end BasicStorage
end CoLinkServer
