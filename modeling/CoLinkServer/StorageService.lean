import CoLinkServer.Authorization
import CoLinkServer.BasicStorage

/-! The storage requests of the clients. All users share the maps of the storage, and what keeps
them apart is how the strings begin. -/
namespace CoLinkServer

structure StorageEntry where
  keyName : String := ""
  keyPath : String := ""
  payload : Bytes := []
deriving DecidableEq

structure ReadKeysRequest where
  dir : String := ""
  includeHistory : Bool := false
deriving DecidableEq

namespace StorageService

open Authorization BasicStorage

/-- The entries of a response. Their order is that of a hash map, so it is left open. -/
abbrev StorageEntries := Multiset StorageEntry

def startsWith (s start : String) : Bool := start.toList.isPrefixOf s.toList

section Requests

variable (importedUsers : Finset String) (maps : StorageMap Bytes) (metadata : MetadataMap)
  (now : ℤ)

def entryOf : Except String String → Except Abort StorageEntry
  | .ok keyPath => .ok { keyPath := keyPath }
  | .error e => .error (.internal e)

/-- What the requests that change an entry have in common. -/
def changeEntry (handler : Handler)
    (operation : StorageMap Bytes → String → Except String String × StorageMap Bytes) :
    Except Abort StorageEntry × StorageMap Bytes :=
  match (do
    checkPrivilegeIn importedUsers metadata (privileges handler)
    getKeyFromMetadata metadata "user_id") with
  | .error e => (.error e,maps)
  | .ok userId => (entryOf (operation maps userId).1,(operation maps userId).2)

def createEntry (body : StorageEntry) : Except Abort StorageEntry × StorageMap Bytes :=
  changeEntry importedUsers maps metadata .createEntry fun maps userId =>
    BasicStorage.create maps userId body.keyName body.payload now

def updateEntry (body : StorageEntry) : Except Abort StorageEntry × StorageMap Bytes :=
  changeEntry importedUsers maps metadata .updateEntry fun maps userId =>
    BasicStorage.update maps userId body.keyName body.payload now

def deleteEntry (body : StorageEntry) : Except Abort StorageEntry × StorageMap Bytes :=
  changeEntry importedUsers maps metadata .deleteEntry fun maps userId =>
    BasicStorage.delete maps userId body.keyName now

def sortEntry (privilege userId : String) :
    List String × List String → StorageEntry → Except Abort (List String × List String)
  | (keyNames,keyPaths),entry =>
    if entry.keyPath = "" ∧ entry.keyName = "" then
      .error (.invalidArgument "both key_path and key_name are empty")
    else if entry.keyPath ≠ "" ∧ entry.keyName ≠ "" then
      .error (.invalidArgument "both key_path and key_name are not empty")
    else if entry.keyName ≠ "" then .ok (keyNames ++ [entry.keyName],keyPaths)
    else if privilege ≠ "host" ∧ ¬startsWith entry.keyPath (userId ++ "::") then
      .error (.permissionDenied ("no permission to read from " ++ entry.keyPath))
    else .ok (keyNames,keyPaths ++ [entry.keyPath])

/-- The key names and the key paths of a list of entries. -/
def sortEntries (privilege userId : String) (entries : List StorageEntry) :
    Except Abort (List String × List String) :=
  entries.foldlM (sortEntry privilege userId) ([],[])

def entriesOf (entries : Entries Bytes) : StorageEntries :=
  entries.entries.map fun e => ({ keyPath := e.1, payload := e.2 } : StorageEntry)

def readEntries (entries : List StorageEntry) : Except Abort StorageEntries := do
  checkPrivilegeIn importedUsers metadata (privileges .readEntries)
  let userId ← getKeyFromMetadata metadata "user_id"
  let privilege ← getKeyFromMetadata metadata "privilege"
  let (keyNames,keyPaths) ← sortEntries privilege userId entries
  let fromKeyPaths ← (readFromKeyPaths maps keyPaths).mapError Abort.internal
  let fromKeyNames ← (readFromKeyNames maps userId keyNames).mapError Abort.internal
  .ok (entriesOf fromKeyPaths + entriesOf fromKeyNames)

/-- The test on the directory has no separator after the user id. -/
def readKeys (body : ReadKeysRequest) : Except Abort StorageEntries := do
  checkPrivilegeIn importedUsers metadata (privileges .readKeys)
  let userId ← getKeyFromMetadata metadata "user_id"
  let privilege ← getKeyFromMetadata metadata "privilege"
  if privilege ≠ "host" ∧ ¬startsWith body.dir userId then
    .error (.invalidArgument "prefix must start with the given user_id")
  else .ok ((listKeys maps body.dir body.includeHistory).val.map fun key => { keyPath := key })

end Requests

inductive StorageRequest
  | createEntry (body : StorageEntry)
  | readEntries (entries : List StorageEntry)
  | updateEntry (body : StorageEntry)
  | deleteEntry (body : StorageEntry)
  | readKeys (body : ReadKeysRequest)

inductive StorageResponse
  | entry (entry : StorageEntry)
  | entries (entries : StorageEntries)

def serve (importedUsers : Finset String) (maps : StorageMap Bytes) (metadata : MetadataMap)
    (now : ℤ) : StorageRequest → Except Abort StorageResponse × StorageMap Bytes
  | .createEntry body =>
    (createEntry importedUsers maps metadata now body).map (·.map .entry) id
  | .readEntries entries =>
    ((readEntries importedUsers maps metadata entries).map .entries,maps)
  | .updateEntry body =>
    (updateEntry importedUsers maps metadata now body).map (·.map .entry) id
  | .deleteEntry body =>
    (deleteEntry importedUsers maps metadata now body).map (·.map .entry) id
  | .readKeys body => ((readKeys importedUsers maps metadata body).map .entries,maps)

/-- The strings that begin with the id of the user and the separator. -/
def Owns (userId s : String) : Prop := (userId ++ "::").toList <+: s.toList

/-- A user id is a public key of 33 bytes in hexadecimal. -/
def IsUserId (userId : String) : Prop :=
  userId.toList.length = 66 ∧ ∀ c ∈ userId.toList, c ∈ "0123456789abcdefABCDEF".toList

/-- Two storages have the same key paths, names and directories among the strings of a set. -/
structure Agree (P : Set String) (maps maps' : StorageMap Bytes) : Prop where
  keyPath : ∀ s ∈ P, maps.keyPathToValue s = maps'.keyPathToValue s
  keyName : ∀ s ∈ P, maps.keyNameToTimestamp s = maps'.keyNameToTimestamp s
  dir : ∀ s ∈ P, maps.prefixToKeyPaths s = maps'.prefixToKeyPaths s

/-- Every directory belongs to a user. -/
def Owned (maps : StorageMap Bytes) : Prop :=
  ∀ s, maps.prefixToKeyPaths s ≠ none → ∃ userId, IsUserId userId ∧ Owns userId s

theorem owns_append (u s : String) : Owns u (u ++ "::" ++ s) := by
  rw [Owns,String.toList_append (s := u ++ "::")]
  exact List.prefix_append _ _

theorem Owns.append {u s : String} (h : Owns u s) (s' : String) : Owns u (s ++ s') := by
  rw [Owns,String.toList_append (s := s)]
  exact h.trans (List.prefix_append _ _)

theorem owns_start (u : String) : Owns u (u ++ "::") := by
  simpa using owns_append u ""

theorem owns_keyName (u k : String) : Owns u (userIdKeyName u k) := owns_append u k

theorem owns_keyPath (u k : String) (t : ℤ) : Owns u (keyPath u k t) := by
  rw [keyPath,String.append_assoc,String.append_assoc]
  exact owns_append u _

theorem owner_unique {u w s : String} (hu : IsUserId u) (hw : IsUserId w)
    (h : u.toList <+: s.toList) (ho : Owns w s) : w = u := by
  have hp : w.toList <+: s.toList := by
    have hh : w.toList <+: (w ++ "::").toList := by simp
    exact hh.trans ho
  have hh := List.prefix_of_prefix_length_le hp h (hw.1.trans hu.1.symm).le
  exact String.toList_inj.mp (hh.eq_of_length (hw.1.trans hu.1.symm))

namespace Agree

variable {P : Set String} {maps maps' maps'' : StorageMap Bytes} {dir : String}

theorem refl (P : Set String) (maps : StorageMap Bytes) : Agree P maps maps :=
  ⟨fun _ _ => rfl,fun _ _ => rfl,fun _ _ => rfl⟩

theorem trans (h : Agree P maps maps') (h' : Agree P maps' maps'') : Agree P maps maps'' :=
  ⟨fun s hs => (h.keyPath s hs).trans (h'.keyPath s hs),
    fun s hs => (h.keyName s hs).trans (h'.keyName s hs),
    fun s hs => (h.dir s hs).trans (h'.dir s hs)⟩

theorem mono {Q : Set String} (h : Agree P maps maps') (hs : Q ⊆ P) : Agree Q maps maps' :=
  ⟨fun s hq => h.keyPath s (hs hq),fun s hq => h.keyName s (hs hq),fun s hq => h.dir s (hs hq)⟩

theorem prefixSet (h : Agree P maps maps') (hd : dir ∈ P) :
    prefixSet maps dir = prefixSet maps' dir := by
  rw [BasicStorage.prefixSet,BasicStorage.prefixSet,h.dir dir hd]

end Agree

def setDir (maps : StorageMap Bytes) (dir : String)
    (content : Option (Finset String × Finset String)) : StorageMap Bytes :=
  { maps with prefixToKeyPaths := Function.update maps.prefixToKeyPaths dir content }

/-- The operation reads and changes nothing but what the user owns. -/
structure Confined {α : Type} (u : String) (f : StorageMap Bytes → α × StorageMap Bytes) :
    Prop where
  result : ∀ maps maps', Agree (Owns u) maps maps' → (f maps).1 = (f maps').1
  agree : ∀ maps maps', Agree (Owns u) maps maps' → Agree (Owns u) (f maps).2 (f maps').2
  frame : ∀ maps, Agree (Owns u)ᶜ maps (f maps).2

namespace Confined

variable {α β : Type} {u dir path : String} {f : StorageMap Bytes → α × StorageMap Bytes}

theorem done (a : α) : Confined u fun maps => (a,maps) :=
  ⟨fun _ _ _ => rfl,fun _ _ h => h,fun maps => .refl _ maps⟩

theorem read {g : StorageMap Bytes → β} {f : β → StorageMap Bytes → α × StorageMap Bytes}
    (hg : ∀ maps maps', Agree (Owns u) maps maps' → g maps = g maps')
    (h : ∀ b, Confined u (f b)) : Confined u fun maps => f (g maps) maps where
  result maps maps' ha := by rw [hg maps maps' ha]; exact (h _).result maps maps' ha
  agree maps maps' ha := by rw [hg maps maps' ha]; exact (h _).agree maps maps' ha
  frame maps := (h _).frame maps

theorem readDir {f : Finset String × Finset String → StorageMap Bytes → α × StorageMap Bytes}
    (hd : Owns u dir) (h : ∀ b, Confined u (f b)) :
    Confined u fun maps => f (prefixSet maps dir) maps :=
  read (fun _ _ ha => ha.prefixSet hd) h

theorem after {g : StorageMap Bytes → StorageMap Bytes}
    (hg : ∀ {maps maps'}, Agree (Owns u) maps maps' → Agree (Owns u) (g maps) (g maps'))
    (hf : ∀ maps, Agree (Owns u)ᶜ maps (g maps)) (h : Confined u f) :
    Confined u fun maps => f (g maps) where
  result _ _ ha := h.result _ _ (hg ha)
  agree _ _ ha := h.agree _ _ (hg ha)
  frame maps := (hf maps).trans (h.frame _)

theorem setDir {content : Option (Finset String × Finset String)} (hd : Owns u dir)
    (h : Confined u f) : Confined u fun maps => f (setDir maps dir content) := by
  refine after (g := fun maps => StorageService.setDir maps dir content)
    (fun ha => ⟨ha.keyPath,ha.keyName,fun s hs => ?_⟩)
    (fun _ => ⟨fun _ _ => rfl,fun _ _ => rfl,fun s hs => ?_⟩) h
  · by_cases he : s = dir
    · simp [StorageService.setDir,he]
    · simpa [StorageService.setDir,he] using ha.dir s hs
  · have hne : s ≠ dir := fun he => hs (he ▸ hd)
    simp [StorageService.setDir,hne]

theorem insertPath (hd : Owns u dir) (h : Confined u f) :
    Confined u fun maps => f (insertPath maps dir path) := by
  have hh := readDir (f := fun sets maps =>
    f (StorageService.setDir maps dir (some (insert path sets.1,insert path sets.2)))) hd
    fun _ => setDir hd h
  exact hh

theorem removeLatest (hd : Owns u dir) (h : Confined u f) :
    Confined u fun maps => f (removeLatest maps dir path) := by
  have hh := readDir (f := fun sets maps =>
    f (StorageService.setDir maps dir (some (sets.1.erase path,sets.2)))) hd fun _ => setDir hd h
  exact hh

theorem setVersion (k : String) (v : Bytes) (t : ℤ) (h : Confined u f) :
    Confined u fun maps => f (setVersion maps u k v t) := by
  refine after (g := fun maps => BasicStorage.setVersion maps u k v t)
    (fun ha => ⟨fun s hs => ?_,fun s hs => ?_,ha.dir⟩)
    (fun _ => ⟨fun s hs => ?_,fun s hs => ?_,fun _ _ => rfl⟩) h
  · by_cases he : s = keyPath u k t
    · simp [BasicStorage.setVersion,he]
    · simpa [BasicStorage.setVersion,he] using ha.keyPath s hs
  · by_cases he : s = userIdKeyName u k
    · simp [BasicStorage.setVersion,he]
    · simpa [BasicStorage.setVersion,he] using ha.keyName s hs
  · have hne : s ≠ keyPath u k t := fun he => hs (he ▸ owns_keyPath u k t)
    simp [BasicStorage.setVersion,hne]
  · have hne : s ≠ userIdKeyName u k := fun he => hs (he ▸ owns_keyName u k)
    simp [BasicStorage.setVersion,hne]

theorem maintainLoop {cur next : String} (splits : List String) (hc : Owns u cur) (hn : Owns u next)
    (h : Confined u f) : Confined u fun maps => f (maintainLoop maps cur next splits) := by
  induction splits generalizing cur next with
  | nil => exact h
  | cons split splits ih =>
    have hn' : Owns u (next ++ ":") := hn.append ":"
    exact insertPath hc (ih hn' (hn'.append split))

theorem maintain (k : String) (h : Confined u f) :
    Confined u fun maps => f (maintainPrefixesAlongPath maps u k) := by
  unfold maintainPrefixesAlongPath
  split
  · exact h
  · exact maintainLoop _ (owns_start u) (owns_append u _) h

theorem readTimestamp (k : String) {f : Option ℤ → StorageMap Bytes → α × StorageMap Bytes}
    (h : ∀ t, Confined u (f t)) :
    Confined u fun maps => f (maps.keyNameToTimestamp (userIdKeyName u k)) maps :=
  read (fun _ _ ha => ha.keyName _ (owns_keyName u k)) h

theorem readValue (k : String) (t : ℤ) {f : Option Bytes → StorageMap Bytes → α × StorageMap Bytes}
    (h : ∀ v, Confined u (f v)) :
    Confined u fun maps => f (maps.keyPathToValue (keyPath u k t)) maps :=
  read (fun _ _ ha => ha.keyPath _ (owns_keyPath u k t)) h

end Confined

theorem confined_update (u k : String) (v : Bytes) (now : ℤ) :
    Confined u fun maps => update maps u k v now := by
  have hd : Owns u (u ++ "::" ++ getPrefix k) := owns_append u _
  have hh := Confined.readTimestamp (u := u) k (f := fun old maps =>
    let maps := setVersion maps u k v now
    let maps := if old.getD 0 = 0 then maintainPrefixesAlongPath maps u k else maps
    let dir := u ++ "::" ++ getPrefix k
    let maps := if old.getD 0 ≠ 0 ∧
        atTimestamp (userIdKeyName u k) (old.getD 0) ∈ (prefixSet maps dir).1
      then removeLatest maps dir (atTimestamp (userIdKeyName u k) (old.getD 0)) else maps
    ((.ok (keyPath u k now) : Except String String),insertPath maps dir (keyPath u k now)))
    fun old => ?_
  · exact hh
  have hrest (old : ℤ) : Confined u fun maps =>
      let dir := u ++ "::" ++ getPrefix k
      let maps := if old ≠ 0 ∧ atTimestamp (userIdKeyName u k) old ∈ (prefixSet maps dir).1
        then removeLatest maps dir (atTimestamp (userIdKeyName u k) old) else maps
      ((.ok (keyPath u k now) : Except String String),insertPath maps dir (keyPath u k now)) := by
    refine Confined.readDir (f := fun sets maps => ((.ok (keyPath u k now) : Except String String),
      insertPath (if old ≠ 0 ∧ atTimestamp (userIdKeyName u k) old ∈ sets.1
        then removeLatest maps (u ++ "::" ++ getPrefix k) (atTimestamp (userIdKeyName u k) old)
        else maps) (u ++ "::" ++ getPrefix k) (keyPath u k now))) hd fun sets => ?_
    by_cases hc : old ≠ 0 ∧ atTimestamp (userIdKeyName u k) old ∈ sets.1
    · simp only [if_pos hc]
      exact (Confined.done _).insertPath hd |>.removeLatest hd
    · simp only [if_neg hc]
      exact (Confined.done _).insertPath hd
  by_cases hz : old.getD 0 = 0
  · simp only [if_pos hz]
    exact (hrest _).maintain k |>.setVersion k v now
  · simp only [if_neg hz]
    exact (hrest _).setVersion k v now

theorem confined_create (u k : String) (v₀ : Bytes) (now : ℤ) :
    Confined u fun maps => create maps u k v₀ now := by
  have hd : Owns u (u ++ "::" ++ getPrefix k) := owns_append u _
  have hstore : Confined u fun maps => ((.ok (keyPath u k now) : Except String String),
      insertPath (setVersion maps u k v₀ now) (u ++ "::" ++ getPrefix k) (keyPath u k now)) :=
    (Confined.done _).insertPath hd |>.setVersion k v₀ now
  have hh := Confined.readTimestamp (u := u) k (f := fun old maps =>
    let store (maps : StorageMap Bytes) := ((.ok (keyPath u k now) : Except String String),
      insertPath (setVersion maps u k v₀ now) (u ++ "::" ++ getPrefix k) (keyPath u k now))
    old.elim (store (maintainPrefixesAlongPath maps u k)) fun current =>
      if (maps.keyPathToValue (atTimestamp (userIdKeyName u k) current)).isSome then
        (.error ("Key name already exists: " ++ userIdKeyName u k),maps)
      else store maps) fun old => ?_
  · refine Eq.mp (congrArg (Confined u) (funext fun maps => ?_)) hh
    simp only [create]
    cases maps.keyNameToTimestamp (userIdKeyName u k) <;> rfl
  cases old with
  | none => exact hstore.maintain k
  | some t =>
    have hh := Confined.readValue (u := u) k t (f := fun v maps =>
      if v.isSome then
        ((.error ("Key name already exists: " ++ userIdKeyName u k) : Except String String),maps)
      else (.ok (keyPath u k now),
        insertPath (setVersion maps u k v₀ now) (u ++ "::" ++ getPrefix k) (keyPath u k now)))
      fun v => ?_
    · exact hh
    cases v with
    | none => exact hstore
    | some v => exact .done _

theorem confined_delete (u k : String) (now : ℤ) : Confined u fun maps => delete maps u k now := by
  have hd : Owns u (u ++ "::" ++ getPrefix k) := owns_append u _
  let missing : Except String String := .error ("Key name not found: " ++ k)
  let deleted : Except String String := .ok (keyPath u k (now / 1000000000))
  let name := userIdKeyName u k
  have hset : ∀ {f : StorageMap Bytes → Except String String × StorageMap Bytes}, Confined u f →
      Confined u fun maps => f { maps with
        keyNameToTimestamp := Function.update maps.keyNameToTimestamp name
          (some (now / 1000000000)) } := by
    intro f hf
    refine hf.after (fun ha => ⟨ha.keyPath,fun s hs => ?_,ha.dir⟩)
      (fun _ => ⟨fun _ _ => rfl,fun s hs => ?_,fun _ _ => rfl⟩)
    · by_cases he : s = name
      · simp [he]
      · simpa [he] using ha.keyName s hs
    · have hne : s ≠ name := fun he => hs (he ▸ owns_keyName u k)
      simp [hne]
  have hh := Confined.readTimestamp (u := u) k (f := fun old maps =>
    old.elim (missing,maps) fun t =>
      if (maps.keyPathToValue (atTimestamp name t)).isSome then
        let maps := { maps with
          keyNameToTimestamp := Function.update maps.keyNameToTimestamp name
            (some (now / 1000000000)) }
        let dir := u ++ "::" ++ getPrefix k
        let maps := if (maps.prefixToKeyPaths dir).isSome ∧ t ≠ 0 ∧
            atTimestamp name t ∈ (prefixSet maps dir).1
          then removeLatest maps dir (atTimestamp name t) else maps
        (deleted,maps)
      else (missing,maps)) fun old => ?_
  · refine Eq.mp (congrArg (Confined u) (funext fun maps => ?_)) hh
    simp only [delete]
    cases maps.keyNameToTimestamp (userIdKeyName u k) <;> rfl
  cases old with
  | none => exact .done _
  | some t =>
    have hv := Confined.readValue (u := u) k t (f := fun v maps =>
      if v.isSome then
        let maps := { maps with
          keyNameToTimestamp := Function.update maps.keyNameToTimestamp name
            (some (now / 1000000000)) }
        let dir := u ++ "::" ++ getPrefix k
        let maps := if (maps.prefixToKeyPaths dir).isSome ∧ t ≠ 0 ∧
            atTimestamp name t ∈ (prefixSet maps dir).1
          then removeLatest maps dir (atTimestamp name t) else maps
        (deleted,maps)
      else (missing,maps)) fun v => ?_
    · exact hv
    cases v with
    | none => exact .done _
    | some v =>
      have hr := Confined.read (u := u)
        (g := fun maps => maps.prefixToKeyPaths (u ++ "::" ++ getPrefix k))
        (f := fun sets maps => (deleted,if sets.isSome ∧ t ≠ 0 ∧
          atTimestamp name t ∈ (sets.getD (∅,∅)).1
          then removeLatest maps (u ++ "::" ++ getPrefix k) (atTimestamp name t) else maps))
        (fun _ _ ha => ha.dir _ hd) fun sets => ?_
      · exact hset hr
      by_cases hc : sets.isSome ∧ t ≠ 0 ∧ atTimestamp name t ∈ (sets.getD (∅,∅)).1
      · simp only [if_pos hc]
        exact (Confined.done _).removeLatest hd
      · simp only [if_neg hc]
        exact .done _

theorem confined_perform (now : ℤ) (call : Call Bytes) :
    Confined call.userId fun maps => BasicStorage.perform maps now call := by
  cases call with
  | create u k v => exact confined_create u k v now
  | update u k v => exact confined_update u k v now
  | delete u k => exact confined_delete u k now

theorem Confined.owned {α : Type} {u : String} {f : StorageMap Bytes → α × StorageMap Bytes}
    (h : Confined u f) (hu : IsUserId u) {maps : StorageMap Bytes} (ho : Owned maps) :
    Owned (f maps).2 := by
  intro s hs
  by_cases hw : Owns u s
  · exact ⟨u,hu,hw⟩
  · rw [← (h.frame maps).dir s hw] at hs
    exact ho s hs

theorem owned_run (calls : List (ℤ × Call Bytes)) (h : ∀ c ∈ calls, IsUserId c.2.userId) :
    Owned (run calls).1 := by
  induction calls using List.reverseRecOn with
  | nil => exact fun s hs => absurd rfl hs
  | append_singleton calls c ih =>
    rw [run_concat]
    have hc := ih fun c' hc' => h c' (List.mem_append_left _ hc')
    exact (confined_perform c.1 c.2).owned (h c (by simp)) hc

section User

variable {u : String} {importedUsers : Finset String} {maps maps' : StorageMap Bytes}
  {metadata : MetadataMap} (hu : IsUserId u) (ho : Owned maps) (ho' : Owned maps')
  (ha : Agree (Owns u) maps maps')
  (hp : getKeyFromMetadata metadata "privilege" = .ok "user")
  (hi : getKeyFromMetadata metadata "user_id" = .ok u)

include hi in
theorem confined_changeEntry (handler : Handler)
    {operation : StorageMap Bytes → String → Except String String × StorageMap Bytes}
    (h : Confined u fun maps => operation maps u) :
    Confined u fun maps => changeEntry importedUsers maps metadata handler operation := by
  unfold changeEntry
  rw [hi]
  cases checkPrivilegeIn importedUsers metadata (privileges handler) with
  | error e => exact .done _
  | ok _ =>
    refine ⟨fun maps maps' ha => ?_,h.agree,h.frame⟩
    exact congrArg entryOf (h.result maps maps' ha)

theorem foldlM_congr_mem {α β : Type} {ε : Type} {f g : β → α → Except ε β} (l : List α) (b : β)
    (h : ∀ x ∈ l, ∀ b, f b x = g b x) : l.foldlM f b = l.foldlM g b := by
  induction l generalizing b with
  | nil => rfl
  | cons x l ih =>
    rw [List.foldlM_cons,List.foldlM_cons,h x (by simp)]
    exact bind_congr fun b => ih b fun y hy => h y (List.mem_cons_of_mem _ hy)

include ha in
theorem readFromKeyPaths_congr (keyPaths : List String) (hk : ∀ p ∈ keyPaths, Owns u p) :
    readFromKeyPaths maps keyPaths = readFromKeyPaths maps' keyPaths := by
  apply foldlM_congr_mem
  intro p hm result
  simp only [ha.keyPath p (hk p hm)]

include ha in
theorem readFromKeyNames_congr (keyNames : List String) :
    readFromKeyNames maps u keyNames = readFromKeyNames maps' u keyNames := by
  apply foldlM_congr_mem
  intro k _ result
  rw [ha.keyName _ (owns_keyName u k)]
  cases maps'.keyNameToTimestamp (userIdKeyName u k) with
  | none => rfl
  | some t => simp only [ha.keyPath _ (owns_keyPath u k t)]

theorem startsWith_iff {s start : String} : startsWith s start ↔ start.toList <+: s.toList :=
  List.isPrefixOf_iff_prefix

theorem sortEntry_owned {privilege : String} (hne : privilege ≠ "host") {entry : StorageEntry}
    {sorted sorted' : List String × List String}
    (h : sortEntry privilege u sorted entry = .ok sorted') (hs : ∀ p ∈ sorted.2, Owns u p) :
    ∀ p ∈ sorted'.2, Owns u p := by
  obtain ⟨keyNames,keyPaths⟩ := sorted
  unfold sortEntry at h
  dsimp only at h
  split_ifs at h with h₁ h₂ h₃ h₄
  · obtain rfl := Except.ok.inj h
    exact hs
  · obtain rfl := Except.ok.inj h
    intro p hp
    rcases List.mem_append.mp hp with hp | hp
    · exact hs p hp
    · obtain rfl := List.mem_singleton.mp hp
      exact startsWith_iff.mp (by simpa [hne] using h₄)

theorem sortEntries_owned {privilege : String} (hne : privilege ≠ "host")
    {entries : List StorageEntry} {sorted : List String × List String}
    (h : sortEntries privilege u entries = .ok sorted) : ∀ p ∈ sorted.2, Owns u p := by
  have hh : ∀ sorted₀ : List String × List String, (∀ p ∈ sorted₀.2, Owns u p) →
      entries.foldlM (sortEntry privilege u) sorted₀ = .ok sorted → ∀ p ∈ sorted.2, Owns u p := by
    clear h
    induction entries with
    | nil =>
      intro sorted₀ hs he
      obtain rfl := Except.ok.inj he
      exact hs
    | cons entry entries ih =>
      intro sorted₀ hs he
      rw [List.foldlM_cons] at he
      cases hf : sortEntry privilege u sorted₀ entry with
      | error e => simp [hf,bind,Except.bind] at he
      | ok sorted₁ =>
        rw [hf] at he
        exact ih sorted₁ (sortEntry_owned hne hf hs) he
  exact hh ([],[]) (by simp) h

include ha hp hi in
theorem readEntries_congr (entries : List StorageEntry) :
    readEntries importedUsers maps metadata entries =
      readEntries importedUsers maps' metadata entries := by
  unfold readEntries
  rw [hi,hp]
  refine bind_congr fun _ => ?_
  simp only [bind,Except.bind]
  cases hs : sortEntries "user" u entries with
  | error e => rfl
  | ok sorted =>
    have hk := sortEntries_owned (by decide) hs
    dsimp only
    rw [readFromKeyPaths_congr ha sorted.2 hk,readFromKeyNames_congr ha sorted.1]

include hu ho in
theorem dir_owned {dir : String} (hd : u.toList <+: dir.toList) :
    Owns u dir ∨ maps.prefixToKeyPaths dir = none := by
  by_contra hn
  obtain ⟨hno,hsome⟩ := not_or.mp hn
  obtain ⟨w,hw,hwo⟩ := ho dir hsome
  exact hno (owner_unique hu hw hd hwo ▸ hwo)

include hu ho ho' ha in
theorem listKeys_congr {dir : String} (hd : u.toList <+: dir.toList) (includeHistory : Bool) :
    listKeys maps dir includeHistory = listKeys maps' dir includeHistory := by
  have hdir : u.toList <+: (dir ++ ":").toList := by
    rw [String.toList_append]
    exact hd.trans (List.prefix_append _ _)
  have hh : maps.prefixToKeyPaths (dir ++ ":") = maps'.prefixToKeyPaths (dir ++ ":") := by
    rcases dir_owned hu ho hdir with h | h
    · exact ha.dir _ h
    · rcases dir_owned hu ho' hdir with h' | h'
      · exact ha.dir _ h'
      · rw [h,h']
  rw [listKeys,listKeys,hh]

include hu ho ho' ha hp hi in
theorem readKeys_congr (body : ReadKeysRequest) :
    readKeys importedUsers maps metadata body = readKeys importedUsers maps' metadata body := by
  unfold readKeys
  rw [hi,hp]
  refine bind_congr fun _ => ?_
  simp only [bind,Except.bind]
  by_cases hs : startsWith body.dir u
  · rw [listKeys_congr hu ho ho' ha (startsWith_iff.mp hs) body.includeHistory]
  · simp [hs]

include hu ho ho' ha hp hi in
/-- What a user is answered depends on the user's own data only, and so does what happens to them.
Nothing else is changed. -/
theorem users_isolated (importedUsers : Finset String) (now : ℤ) (request : StorageRequest) :
    (serve importedUsers maps metadata now request).1 =
      (serve importedUsers maps' metadata now request).1 ∧
    Agree (Owns u) (serve importedUsers maps metadata now request).2
      (serve importedUsers maps' metadata now request).2 ∧
    ∀ w, IsUserId w → w ≠ u →
      Agree (Owns w) maps (serve importedUsers maps metadata now request).2 ∧
      Agree (Owns w) maps' (serve importedUsers maps' metadata now request).2 := by
  have hothers (w : String) (hw : IsUserId w) (hne : w ≠ u) : {s | Owns w s} ⊆ (Owns u)ᶜ := by
    intro s hs ho
    have hstart : w.toList <+: s.toList := by
      have hh : w.toList <+: (w ++ "::").toList := by simp
      exact hh.trans hs
    exact hne (owner_unique hw hu hstart ho).symm
  have hchange {f : StorageMap Bytes → Except Abort StorageEntry × StorageMap Bytes}
      (h : Confined u f) :
      ((f maps).map (·.map StorageResponse.entry) id).1 =
        ((f maps').map (·.map StorageResponse.entry) id).1 ∧
      Agree (Owns u) (f maps).2 (f maps').2 ∧
      ∀ w, IsUserId w → w ≠ u → Agree (Owns w) maps (f maps).2 ∧ Agree (Owns w) maps' (f maps').2 :=
    ⟨congrArg (Except.map StorageResponse.entry) (h.result _ _ ha),h.agree _ _ ha,fun w hw hne =>
      ⟨(h.frame maps).mono (hothers w hw hne),(h.frame maps').mono (hothers w hw hne)⟩⟩
  cases request with
  | createEntry body => exact hchange (confined_changeEntry hi _ (confined_create _ _ _ _))
  | updateEntry body => exact hchange (confined_changeEntry hi _ (confined_update _ _ _ _))
  | deleteEntry body => exact hchange (confined_changeEntry hi _ (confined_delete _ _ _))
  | readEntries entries =>
    exact ⟨congrArg (Except.map StorageResponse.entries) (readEntries_congr ha hp hi entries),ha,
      fun w _ _ => ⟨.refl _ _,.refl _ _⟩⟩
  | readKeys body =>
    exact ⟨congrArg (Except.map StorageResponse.entries) (readKeys_congr hu ho ho' ha hp hi body),ha,
      fun w _ _ => ⟨.refl _ _,.refl _ _⟩⟩

end User

def sampleUserId (c : Char) : String := .ofList (List.replicate 66 c)

def sampleMetadata (privilege userId : String) : MetadataMap :=
  insert (insert (fun _ => none) "privilege" privilege) "user_id" userId

/-- One user reads the keys, once alone and once after another user has stored something. -/
theorem users_isolated_sample :
    (serve {sampleUserId 'a'} empty (sampleMetadata "user" (sampleUserId 'a')) 5
      (.readKeys ⟨sampleUserId 'a',true⟩)).1 =
    (serve {sampleUserId 'a'} (run [(1,.create (sampleUserId 'b') "k" [7])]).1
      (sampleMetadata "user" (sampleUserId 'a')) 5 (.readKeys ⟨sampleUserId 'a',true⟩)).1 := by
  have hid (c : Char) (hc : c ∈ ['a','b']) : IsUserId (sampleUserId c) := by
    constructor
    · simp [sampleUserId]
    · intro d hd
      obtain rfl : d = c := by simpa [sampleUserId] using hd
      have hall : ∀ d ∈ ['a','b'], d ∈ "0123456789abcdefABCDEF".toList := by simp
      exact hall d hc
  have hne : sampleUserId 'a' ≠ sampleUserId 'b' := by decide +kernel
  have ho : Owned (run (V := Bytes) [(1,.create (sampleUserId 'b') "k" [7])]).1 :=
    owned_run _ (by simpa [Call.userId] using hid 'b' (by simp))
  have ha : Agree (Owns (sampleUserId 'a')) empty
      (run (V := Bytes) [(1,.create (sampleUserId 'b') "k" [7])]).1 := by
    refine ((confined_create (sampleUserId 'b') "k" [7] 1).frame empty).mono fun s hs hb => ?_
    have hstart : (sampleUserId 'a').toList <+: s.toList :=
      List.IsPrefix.trans (by simp) (hs : Owns (sampleUserId 'a') s)
    exact hne (owner_unique (hid 'a' (by simp)) (hid 'b' (by simp)) hstart hb).symm
  exact (users_isolated (hid 'a' (by simp)) (fun _ h => absurd rfl h) ho ha (getKey_insert_of_ne _ _
    (by decide) |>.trans (getKey_insert _ _ _)) (getKey_insert _ _ _) _ 5 _).1

end StorageService
end CoLinkServer
