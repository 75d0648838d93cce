import CoLinkServer.BasicStorage

/-! The three hash maps of the storage represent one versioned map. The strings under which
they are keyed never collide, a deleted key points at a time at which nothing was written,
and the two sets of a directory hold exactly the versions and the subdirectories in it. -/
namespace CoLinkServer
namespace BasicStorage

open SeparatedText VersionedMap

variable {V : Type}

/-- The content of the storage: a user and a key name to the versions of the entry. -/
abbrev Content (V : Type) := VersionedMap (String × String) ℤ V

/-- The directory `d` is `k` cut off at one of its colons. -/
def Above (d k : String) : Prop := d.toList ++ [':'] <+: k.toList

/-- Some key ever written lies below `d`. -/
def Directory (a : Content V) (u d : String) : Prop := ∃ k, a.Known (u,k) ∧ Above d k

/-- What one of the two sets of `dir` should contain. -/
def Listed (a : Content V) (history : Bool) (dir path : String) : Prop :=
  ∃ u k t, dir = userIdKeyName u (getPrefix k) ∧ path = keyPath u k t ∧
    ((if history then a.version (u,k) t ≠ none else a.current (u,k) = some t) ∨
      (t = 0 ∧ Directory a u k))

def InSet (maps : StorageMap V) (history : Bool) (dir path : String) : Prop :=
  path ∈ if history then (prefixSet maps dir).2 else (prefixSet maps dir).1

theorem inSet_insertPath {maps : StorageMap V} {h : Bool} {dir path dir' path' : String} :
    InSet (insertPath maps dir path) h dir' path' ↔
      InSet maps h dir' path' ∨ dir' = dir ∧ path' = path := by
  by_cases hd : dir' = dir
  · subst hd
    cases h <;> simp [InSet,insertPath,prefixSet,or_comm]
  · simp [InSet,insertPath,prefixSet,hd]

theorem inSet_removeLatest {maps : StorageMap V} {h : Bool} {dir path dir' path' : String} :
    InSet (removeLatest maps dir path) h dir' path' ↔
      InSet maps h dir' path' ∧ ¬(h = false ∧ dir' = dir ∧ path' = path) := by
  by_cases hd : dir' = dir
  · subst hd
    cases h <;> simp [InSet,removeLatest,prefixSet,and_comm]
  · simp [InSet,removeLatest,prefixSet,hd]

theorem getPrefix_ofList {d s : List Char} (hs : ':' ∉ s) :
    getPrefix (.ofList (d ++ ':' :: s)) = .ofList d ++ ":" := by
  have hr : rsplit ':' (.ofList (d ++ ':' :: s)) = some (.ofList d,.ofList s) :=
    rsplit_eq_some.mpr ⟨by rw [← String.toList_inj]; simp,by simpa using hs⟩
  rw [getPrefix,hr]

theorem getPrefix_of_noColon {s : List Char} (hs : ':' ∉ s) : getPrefix (.ofList s) = "" := by
  have hr : rsplit ':' (.ofList s) = none := rsplit_eq_none.mpr (by simpa using hs)
  rw [getPrefix,hr]

theorem inSet_maintainLoop {maps : StorageMap V} {h : Bool} {dir path u : String}
    {d : List Char} {splits : List (List Char)} (hs : ∀ s ∈ splits, ':' ∉ s) :
    InSet (maintainLoop maps (userIdKeyName u (getPrefix (.ofList d)))
        (userIdKeyName u (.ofList d)) (splits.map .ofList)) h dir path ↔
      InSet maps h dir path ∨ ∃ e ∈ levels ':' d splits,
        dir = userIdKeyName u (getPrefix (.ofList e)) ∧ path = keyPath u (.ofList e) 0 := by
  induction splits generalizing maps d with
  | nil => simp [maintainLoop,levels]
  | cons s splits ih =>
    have hs' := List.forall_mem_cons.mp hs
    have hcur : userIdKeyName u (.ofList d) ++ ":" =
        userIdKeyName u (getPrefix (.ofList (d ++ ':' :: s))) := by
      rw [getPrefix_ofList hs'.1]; simp [userIdKeyName,String.append_assoc]
    have hnext : userIdKeyName u (.ofList d) ++ ":" ++ .ofList s =
        userIdKeyName u (.ofList (d ++ ':' :: s)) := by
      rw [← String.toList_inj]; simp [userIdKeyName]
    have hpath : userIdKeyName u (.ofList d) ++ "@0" = keyPath u (.ofList d) 0 := by
      rw [← atTimestamp_userIdKeyName,atTimestamp,String.append_assoc]; rfl
    rw [List.map_cons,maintainLoop,hnext,hcur,hpath,ih hs'.2,inSet_insertPath,levels,or_assoc]
    simp

/-- The walk enters every directory above the key. -/
theorem inSet_maintain {maps : StorageMap V} {h : Bool} {dir path u k : String} :
    InSet (maintainPrefixesAlongPath maps u k) h dir path ↔
      InSet maps h dir path ∨
        ∃ d, Above d k ∧ dir = userIdKeyName u (getPrefix d) ∧ path = keyPath u d 0 := by
  have hne := List.splitOn_ne_nil ':' k.toList
  have hns : ∀ s ∈ k.toList.splitOn ':', ':' ∉ s := fun s hs => not_mem_of_mem_splitOn hs
  have hj : [':'].intercalate (k.toList.splitOn ':') = k.toList := List.intercalate_splitOn ':'
  unfold maintainPrefixesAlongPath
  cases hk : k.toList.splitOn ':' with
  | nil => exact absurd hk hne
  | cons s splits =>
    rw [hk] at hns hj
    have hns' := List.forall_mem_cons.mp hns
    have hcur : u ++ "::" = userIdKeyName u (getPrefix (.ofList s)) := by
      rw [getPrefix_of_noColon hns'.1]; simp [userIdKeyName]
    have hl (e : List Char) : e ∈ levels ':' s splits ↔ e ++ [':'] <+: k.toList := by
      have hm := mem_levels (d := e) [] hns'.1 hns'.2
      rw [hj] at hm
      simpa using hm
    show InSet (maintainLoop maps (u ++ "::") (userIdKeyName u (.ofList s))
      (splits.map .ofList)) h dir path ↔ _
    rw [hcur,inSet_maintainLoop hns'.2]
    simp only [hl,Above]
    constructor
    · rintro (hi | ⟨e,he,hd,hp⟩)
      · exact .inl hi
      · exact .inr ⟨.ofList e,by simpa using he,hd,hp⟩
    · rintro (hi | ⟨d,he,hd,hp⟩)
      · exact .inl hi
      · exact .inr ⟨d.toList,he,by simpa using hd,by simpa using hp⟩

/-- No version is older than this many nanoseconds, and no deletion younger than this many
seconds. -/
def epoch : ℤ := 10 ^ 18

/-- The maps after some calls, the last of them at `latest`, represent the content `a`. -/
structure Refines (latest : ℤ) (maps : StorageMap V) (a : Content V) : Prop where
  users : ∀ u k, a.Known (u,k) → NoColon u
  times : ∀ u k t, a.version (u,k) t ≠ none → epoch ≤ t ∧ t ≤ latest
  live : ∀ u k t, a.current (u,k) = some t → a.version (u,k) t ≠ none
  value : ∀ path v, maps.keyPathToValue path = some v ↔
    ∃ u k t, path = keyPath u k t ∧ a.version (u,k) t = some v
  unwritten : ∀ u k, NoColon u →
    (maps.keyNameToTimestamp (userIdKeyName u k) = none ↔ ¬ a.Known (u,k))
  pointer : ∀ u k t, NoColon u → maps.keyNameToTimestamp (userIdKeyName u k) = some t →
    a.current (u,k) = some t ∨ (a.current (u,k) = none ∧ 0 < t ∧ t < epoch)
  sets : ∀ h dir path, InSet maps h dir path ↔ Listed a h dir path

theorem refines_empty : Refines (V := V) 0 empty VersionedMap.empty := by
  have hk (x : String × String) : ¬ (VersionedMap.empty : Content V).Known x := by
    rintro ⟨t,ht⟩
    exact ht rfl
  have hd (u d : String) : ¬ Directory (VersionedMap.empty : Content V) u d := by
    rintro ⟨k,hh,-⟩
    exact hk _ hh
  refine ⟨fun u k h => absurd h (hk _),fun u k t h => absurd rfl h,fun u k t h => ?_,
    fun path v => ?_,fun u k _ => ?_,fun u k t _ h => ?_,fun h dir path => ?_⟩
  · simp [VersionedMap.empty] at h
  · simp [empty,VersionedMap.empty]
  · simp [hk,empty]
  · simp [empty] at h
  · have hl : ¬ Listed (VersionedMap.empty : Content V) h dir path := by
      rintro ⟨u,k,t,-,-,hh | ⟨-,hh⟩⟩
      · cases h <;> simp [VersionedMap.empty] at hh
      · exact hd u k hh
    cases h <;> simp [InSet,prefixSet,empty,hl]

namespace Refines

variable {latest : ℤ} {maps : StorageMap V} {a : Content V} {u k : String}

theorem version_noColon (h : Refines latest maps a) {t : ℤ} (hv : a.version (u,k) t ≠ none) :
    NoColon u := h.users u k ⟨t,hv⟩

theorem known_of_current (h : Refines latest maps a) {t : ℤ} (hc : a.current (u,k) = some t) :
    a.Known (u,k) := ⟨t,h.live u k t hc⟩

theorem value_keyPath (h : Refines latest maps a) (hu : NoColon u) (t : ℤ) :
    maps.keyPathToValue (keyPath u k t) = a.version (u,k) t := by
  refine Option.ext fun v => ?_
  rw [h.value]
  constructor
  · rintro ⟨u',k',t',he,hv⟩
    have hu' := h.version_noColon (u := u') (k := k') (t := t') (by simp [hv])
    obtain ⟨rfl,rfl,rfl⟩ := (keyPath_inj hu hu').mp he
    exact hv
  · intro hv
    exact ⟨u,k,t,rfl,hv⟩

theorem current_iff (h : Refines latest maps a) (hu : NoColon u) {t : ℤ}
    (ht : maps.keyNameToTimestamp (userIdKeyName u k) = some t) :
    (maps.keyPathToValue (atTimestamp (userIdKeyName u k) t)).isSome ↔
      a.current (u,k) = some t := by
  rw [atTimestamp_userIdKeyName,h.value_keyPath hu,Option.isSome_iff_ne_none]
  rcases h.pointer u k t hu ht with hc | ⟨hc,hlo,hhi⟩
  · have hl := h.live u k t hc
    simp [hc,hl]
  · have hn : a.version (u,k) t = none := by
      by_contra hv
      have hh := h.times u k t hv
      omega
    simp [hc,hn]

theorem timestamp_of_current (h : Refines latest maps a) {t : ℤ}
    (hc : a.current (u,k) = some t) :
    maps.keyNameToTimestamp (userIdKeyName u k) = some t := by
  have hk := h.known_of_current hc
  have hu := h.users u k hk
  cases ht : maps.keyNameToTimestamp (userIdKeyName u k) with
  | none => exact absurd hk ((h.unwritten u k hu).mp ht)
  | some t' =>
    rcases h.pointer u k t' hu ht with hc' | ⟨hc',-⟩
    · rw [← hc',hc]
    · rw [hc] at hc'
      cases hc'

theorem directory_noColon (h : Refines latest maps a) {d : String} (hd : Directory a u d) :
    NoColon u := by
  obtain ⟨k,hk,-⟩ := hd
  exact h.users u k hk

/-- Whatever the effect on the index, a write of a new version is represented if the value
and the pointer of the key are set, the directories above the key are entered, and the new
key path replaces the current one among the latest. -/
theorem write (h : Refines latest maps a) {now : ℤ} {v : V} {maps' : StorageMap V}
    (hu : NoColon u) (hlo : epoch ≤ now) (hnow : latest < now)
    (hvalue : maps'.keyPathToValue =
      Function.update maps.keyPathToValue (keyPath u k now) (some v))
    (htime : maps'.keyNameToTimestamp =
      Function.update maps.keyNameToTimestamp (userIdKeyName u k) (some now))
    (hsets : ∀ hist dir path, InSet maps' hist dir path ↔
      (InSet maps hist dir path ∧ ¬(hist = false ∧ ∃ t, a.current (u,k) = some t ∧
        path = keyPath u k t)) ∨
      (∃ d, Above d k ∧ dir = userIdKeyName u (getPrefix d) ∧ path = keyPath u d 0) ∨
      (dir = userIdKeyName u (getPrefix k) ∧ path = keyPath u k now)) :
    Refines now maps' (a.write (u,k) now v) := by
  have hknown (u' k' : String) : (a.write (u,k) now v).Known (u',k') ↔
      (u' = u ∧ k' = k) ∨ a.Known (u',k') := by rw [known_write,Prod.mk.injEq]
  have hver (u' k' : String) (t : ℤ) : (a.write (u,k) now v).version (u',k') t ≠ none ↔
      (u' = u ∧ k' = k ∧ t = now) ∨ a.version (u',k') t ≠ none := by
    rw [version_write_ne_none,Prod.mk.injEq,and_assoc]
  refine ⟨fun u' k' hk => ?users,fun u' k' t hv => ?times,fun u' k' t hc => ?live,
    fun path w => ?value,fun u' k' hu' => ?unwritten,fun u' k' t hu' ht => ?pointer,
    fun hist dir path => ?sets⟩
  case users =>
    rcases (hknown u' k').mp hk with ⟨rfl,rfl⟩ | hk
    · exact hu
    · exact h.users u' k' hk
  case times =>
    rcases (hver u' k' t).mp hv with ⟨rfl,rfl,rfl⟩ | hv
    · omega
    · have hh := h.times u' k' t hv
      omega
  case live =>
    rw [hver]
    by_cases he : (u',k') = (u,k)
    · obtain ⟨rfl,rfl⟩ := Prod.mk.inj he
      rw [current_write_self] at hc
      exact .inl ⟨rfl,rfl,(Option.some.inj hc).symm⟩
    · rw [current_write_of_ne _ he] at hc
      exact .inr (h.live u' k' t hc)
  case value =>
    rw [hvalue]
    by_cases hp : path = keyPath u k now
    · subst hp
      rw [Function.update_self]
      constructor
      · intro hw
        exact ⟨u,k,now,rfl,by simp [version_write,Option.some.inj hw]⟩
      · rintro ⟨u',k',t,he,hw⟩
        have hn : (a.write (u,k) now v).version (u',k') t ≠ none := by simp [hw]
        have hu' : NoColon u' := by
          rcases (hver u' k' t).mp hn with ⟨rfl,-⟩ | hn
          · exact hu
          · exact h.version_noColon hn
        obtain ⟨rfl,rfl,rfl⟩ := (keyPath_inj hu hu').mp he
        simpa [version_write] using hw
    · rw [Function.update_of_ne hp,h.value]
      constructor
      · rintro ⟨u',k',t,rfl,hw⟩
        have hn : ¬((u',k') = (u,k) ∧ t = now) := by
          rintro ⟨he,rfl⟩
          obtain ⟨rfl,rfl⟩ := Prod.mk.inj he
          exact hp rfl
        exact ⟨u',k',t,rfl,by rw [version_write,if_neg hn]; exact hw⟩
      · rintro ⟨u',k',t,rfl,hw⟩
        have hn : ¬((u',k') = (u,k) ∧ t = now) := by
          rintro ⟨he,rfl⟩
          obtain ⟨rfl,rfl⟩ := Prod.mk.inj he
          exact hp rfl
        rw [version_write,if_neg hn] at hw
        exact ⟨u',k',t,rfl,hw⟩
  case unwritten =>
    rw [htime,hknown]
    by_cases he : u' = u ∧ k' = k
    · obtain ⟨rfl,rfl⟩ := he
      simp
    · have hne : userIdKeyName u' k' ≠ userIdKeyName u k := fun hh =>
        he ((userIdKeyName_inj hu' hu).mp hh)
      rw [Function.update_of_ne hne,h.unwritten u' k' hu']
      simp [he]
  case pointer =>
    rw [htime] at ht
    by_cases he : u' = u ∧ k' = k
    · obtain ⟨rfl,rfl⟩ := he
      rw [Function.update_self] at ht
      exact .inl (by rw [current_write_self,ht])
    · have hne : userIdKeyName u' k' ≠ userIdKeyName u k := fun hh =>
        he ((userIdKeyName_inj hu' hu).mp hh)
      rw [Function.update_of_ne hne] at ht
      rw [current_write_of_ne _ (fun hh => he (Prod.mk.inj hh))]
      exact h.pointer u' k' t hu' ht
  case sets =>
    have hdir (u' d : String) : Directory (a.write (u,k) now v) u' d ↔
        Directory a u' d ∨ (u' = u ∧ Above d k) := by
      constructor
      · rintro ⟨k',hk',ha⟩
        rcases (hknown u' k').mp hk' with ⟨rfl,rfl⟩ | hk'
        · exact .inr ⟨rfl,ha⟩
        · exact .inl ⟨k',hk',ha⟩
      · rintro (⟨k',hk',ha⟩ | ⟨rfl,ha⟩)
        · exact ⟨k',(hknown u' k').mpr (.inr hk'),ha⟩
        · exact ⟨k,(hknown u' k).mpr (.inl ⟨rfl,rfl⟩),ha⟩
    rw [hsets,h.sets]
    constructor
    · rintro (⟨⟨u',k',t,hd,hp,ht⟩,hs⟩ | ⟨d,ha,hd,hp⟩ | ⟨hd,hp⟩)
      · refine ⟨u',k',t,hd,hp,ht.imp (fun ht => ?_) fun ht => ⟨ht.1,(hdir u' k').mpr (.inl ht.2)⟩⟩
        cases hist with
        | true => exact (hver u' k' t).mpr (.inr ht)
        | false =>
          have hne : (u',k') ≠ (u,k) := by
            rintro he
            obtain ⟨rfl,rfl⟩ := Prod.mk.inj he
            exact hs ⟨rfl,t,ht,hp⟩
          simpa [current_write_of_ne _ hne] using ht
      · exact ⟨u,d,0,hd,hp,.inr ⟨rfl,(hdir u d).mpr (.inr ⟨rfl,ha⟩)⟩⟩
      · refine ⟨u,k,now,hd,hp,.inl ?_⟩
        cases hist with
        | true => exact (hver u k now).mpr (.inl ⟨rfl,rfl,rfl⟩)
        | false => simp
    · rintro ⟨u',k',t,hd,hp,ht | ⟨rfl,ht⟩⟩
      · cases hist with
        | true =>
          rcases (hver u' k' t).mp ht with ⟨rfl,rfl,rfl⟩ | ht
          · exact .inr (.inr ⟨hd,hp⟩)
          · exact .inl ⟨⟨u',k',t,hd,hp,.inl ht⟩,by simp⟩
        | false =>
          have ht' : (a.write (u,k) now v).current (u',k') = some t := by simpa using ht
          by_cases he : (u',k') = (u,k)
          · obtain ⟨rfl,rfl⟩ := Prod.mk.inj he
            rw [current_write_self] at ht'
            obtain rfl := Option.some.inj ht'
            exact .inr (.inr ⟨hd,hp⟩)
          · rw [current_write_of_ne _ he] at ht'
            have hu' := h.users u' k' (h.known_of_current ht')
            refine .inl ⟨⟨u',k',t,hd,hp,.inl (by simpa using ht')⟩,fun ⟨_,t',_,hp'⟩ => ?_⟩
            obtain ⟨rfl,rfl,-⟩ := (keyPath_inj hu' hu).mp (hp.symm.trans hp')
            exact he rfl
      · rcases (hdir u' k').mp ht with ht | ⟨rfl,ha⟩
        · have hu' := h.directory_noColon ht
          refine .inl ⟨⟨u',k',0,hd,hp,.inr ⟨rfl,ht⟩⟩,fun ⟨_,t',hc,hp'⟩ => ?_⟩
          have ht0 := ((keyPath_inj hu' hu).mp (hp.symm.trans hp')).2.2
          have hlo' := (h.times u k t' (h.live u k t' hc)).1
          simp only [epoch] at hlo'
          omega
        · exact .inr (.inl ⟨k',ha,hd,hp⟩)

/-- A deletion is represented if the key points to a time without a version and its key path
leaves the latest ones. -/
theorem erase (h : Refines latest maps a) {old stamp : ℤ} {maps' : StorageMap V}
    (hu : NoColon u) (hc : a.current (u,k) = some old) (hpos : 0 < stamp) (hlt : stamp < epoch)
    (hvalue : maps'.keyPathToValue = maps.keyPathToValue)
    (htime : maps'.keyNameToTimestamp =
      Function.update maps.keyNameToTimestamp (userIdKeyName u k) (some stamp))
    (hsets : ∀ hist dir path, InSet maps' hist dir path ↔
      InSet maps hist dir path ∧ ¬(hist = false ∧ path = keyPath u k old)) :
    Refines latest maps' (a.delete (u,k)) := by
  refine ⟨h.users,h.times,fun u' k' t hc' => ?live,fun path w => ?value,
    fun u' k' hu' => ?unwritten,fun u' k' t hu' ht => ?pointer,fun hist dir path => ?sets⟩
  case live =>
    by_cases he : (u',k') = (u,k)
    · rw [he,current_delete_self] at hc'
      cases hc'
    · rw [current_delete_of_ne _ he] at hc'
      exact h.live u' k' t hc'
  case value =>
    rw [hvalue]
    exact h.value path w
  case unwritten =>
    rw [htime,known_delete]
    by_cases he : u' = u ∧ k' = k
    · obtain ⟨rfl,rfl⟩ := he
      simp [h.known_of_current hc]
    · have hne : userIdKeyName u' k' ≠ userIdKeyName u k := fun hh =>
        he ((userIdKeyName_inj hu' hu).mp hh)
      rw [Function.update_of_ne hne]
      exact h.unwritten u' k' hu'
  case pointer =>
    rw [htime] at ht
    by_cases he : u' = u ∧ k' = k
    · obtain ⟨rfl,rfl⟩ := he
      rw [Function.update_self] at ht
      obtain rfl := Option.some.inj ht
      exact .inr ⟨by simp,hpos,hlt⟩
    · have hne : userIdKeyName u' k' ≠ userIdKeyName u k := fun hh =>
        he ((userIdKeyName_inj hu' hu).mp hh)
      rw [Function.update_of_ne hne] at ht
      rw [current_delete_of_ne _ (fun hh => he (Prod.mk.inj hh))]
      exact h.pointer u' k' t hu' ht
  case sets =>
    rw [hsets,h.sets]
    constructor
    · rintro ⟨⟨u',k',t,hd,hp,ht⟩,hs⟩
      refine ⟨u',k',t,hd,hp,ht.imp_left fun ht => ?_⟩
      cases hist with
      | true => exact ht
      | false =>
        have ht' : a.current (u',k') = some t := by simpa using ht
        have hne : (u',k') ≠ (u,k) := by
          intro he
          obtain ⟨rfl,rfl⟩ := Prod.mk.inj he
          rw [hc] at ht'
          exact hs ⟨rfl,by rw [hp,Option.some.inj ht']⟩
        simpa [current_delete_of_ne _ hne] using ht
    · rintro ⟨u',k',t,hd,hp,ht | ⟨rfl,ht⟩⟩
      · cases hist with
        | true => exact ⟨⟨u',k',t,hd,hp,.inl ht⟩,by simp⟩
        | false =>
          have ht' : (a.delete (u,k)).current (u',k') = some t := by simpa using ht
          by_cases he : (u',k') = (u,k)
          · rw [he,current_delete_self] at ht'
            cases ht'
          · rw [current_delete_of_ne _ he] at ht'
            have hu' := h.users u' k' (h.known_of_current ht')
            refine ⟨⟨u',k',t,hd,hp,.inl (by simpa using ht')⟩,fun ⟨_,hp'⟩ => ?_⟩
            obtain ⟨rfl,rfl,-⟩ := (keyPath_inj hu' hu).mp (hp.symm.trans hp')
            exact he rfl
      · have hu' := h.directory_noColon (u := u') ht
        refine ⟨⟨u',k',0,hd,hp,.inr ⟨rfl,ht⟩⟩,fun ⟨_,hp'⟩ => ?_⟩
        have ht0 := ((keyPath_inj hu' hu).mp (hp.symm.trans hp')).2.2
        have hlo' := (h.times u k old (h.live u k old hc)).1
        simp only [epoch] at hlo'
        omega

theorem mono (h : Refines latest maps a) {later : ℤ} (hle : latest ≤ later) :
    Refines later maps a :=
  { h with
    times := fun u k t hv => ⟨(h.times u k t hv).1,(h.times u k t hv).2.trans hle⟩ }

/-- The current key path of a key is in no directory but its own, and the latest ones hold
no other key path of the key. -/
theorem latest_keyPath (h : Refines latest maps a) (hu : NoColon u) {old : ℤ} (hold : old ≠ 0)
    {dir : String} : InSet maps false dir (keyPath u k old) ↔
      dir = userIdKeyName u (getPrefix k) ∧ a.current (u,k) = some old := by
  rw [h.sets]
  constructor
  · rintro ⟨u',k',t,hd,hp,ht | ⟨rfl,ht⟩⟩
    · have ht' : a.current (u',k') = some t := by simpa using ht
      obtain ⟨rfl,rfl,rfl⟩ := (keyPath_inj hu (h.users u' k' (h.known_of_current ht'))).mp hp
      exact ⟨hd,ht'⟩
    · exact absurd ((keyPath_inj hu (h.directory_noColon ht)).mp hp).2.2 hold
  · rintro ⟨hd,hc⟩
    exact ⟨u,k,old,hd,rfl,.inl (by simpa using hc)⟩

theorem inSet_above (h : Refines latest maps a) (hk : a.Known (u,k)) {d : String}
    (hd : Above d k) (hist : Bool) :
    InSet maps hist (userIdKeyName u (getPrefix d)) (keyPath u d 0) := by
  rw [h.sets]
  exact ⟨u,d,0,rfl,rfl,.inr ⟨rfl,k,hk,hd⟩⟩

theorem create (h : Refines latest maps a) (hu : NoColon u) {now : ℤ} (hlo : epoch ≤ now)
    (hnow : latest < now) (v : V) :
    (a.current (u,k) ≠ none ∧ create maps u k v now =
      (.error ("Key name already exists: " ++ userIdKeyName u k),maps)) ∨
    (a.current (u,k) = none ∧ ∃ maps', create maps u k v now = (.ok (keyPath u k now),maps') ∧
      Refines now maps' (a.write (u,k) now v)) := by
  cases ht : maps.keyNameToTimestamp (userIdKeyName u k) with
  | none =>
    have hk : ¬ a.Known (u,k) := (h.unwritten u k hu).mp ht
    have hc : a.current (u,k) = none := by
      by_contra hc
      obtain ⟨t,hc⟩ := Option.ne_none_iff_exists'.mp hc
      exact hk (h.known_of_current hc)
    have he : BasicStorage.create maps u k v now = (.ok (keyPath u k now),
        insertPath (setVersion (maintainPrefixesAlongPath maps u k) u k v now)
          (userIdKeyName u (getPrefix k)) (keyPath u k now)) := by
      simp only [BasicStorage.create,ht]
      rfl
    refine .inr ⟨hc,_,he,h.write hu hlo hnow ?_ ?_ fun hist dir path => ?_⟩
    · simp [insertPath,setVersion]
    · simp [insertPath,setVersion]
    · rw [inSet_insertPath]
      show (InSet (maintainPrefixesAlongPath maps u k) hist dir path ∨ _) ↔ _
      rw [inSet_maintain,or_assoc]
      simp [hc]
  | some t =>
    have hl := h.current_iff hu ht
    by_cases hs : (maps.keyPathToValue (atTimestamp (userIdKeyName u k) t)).isSome
    · have hc := hl.mp hs
      refine .inl ⟨by simp [hc],?_⟩
      simp only [BasicStorage.create,ht,hs,if_true]
    · have hk : a.Known (u,k) := by
        by_contra hk
        rw [(h.unwritten u k hu).mpr hk] at ht
        cases ht
      have hc : a.current (u,k) = none := by
        rcases h.pointer u k t hu ht with hc | ⟨hc,-⟩
        · exact absurd (hl.mpr hc) hs
        · exact hc
      have he : BasicStorage.create maps u k v now = (.ok (keyPath u k now),
          insertPath (setVersion maps u k v now)
            (userIdKeyName u (getPrefix k)) (keyPath u k now)) := by
        simp only [BasicStorage.create,ht,hs]
        rfl
      refine .inr ⟨hc,_,he,h.write hu hlo hnow rfl rfl fun hist dir path => ?_⟩
      rw [inSet_insertPath]
      show (InSet maps hist dir path ∨ _) ↔ _
      constructor
      · rintro (hi | hi)
        · exact .inl ⟨hi,by simp [hc]⟩
        · exact .inr (.inr hi)
      · rintro (⟨hi,-⟩ | ⟨d,hd,rfl,rfl⟩ | hi)
        · exact .inl hi
        · exact .inl (h.inSet_above hk hd hist)
        · exact .inr hi

theorem inSet_replaced {maps : StorageMap V} {hist : Bool} {dir path dir' old : String} :
    InSet (if old ∈ (prefixSet maps dir').1 then removeLatest maps dir' old else maps)
        hist dir path ↔
      InSet maps hist dir path ∧ ¬(hist = false ∧ dir = dir' ∧ path = old) := by
  split_ifs with hm
  · exact inSet_removeLatest
  · have hn : InSet maps hist dir path → ¬(hist = false ∧ dir = dir' ∧ path = old) := by
      rintro hi ⟨rfl,rfl,rfl⟩
      exact hm (by simpa [InSet] using hi)
    exact ⟨fun hi => ⟨hi,hn hi⟩,fun hi => hi.1⟩

theorem pointer_ne_zero (h : Refines latest maps a) (hu : NoColon u) {t : ℤ}
    (ht : maps.keyNameToTimestamp (userIdKeyName u k) = some t) : t ≠ 0 := by
  rcases h.pointer u k t hu ht with hc | ⟨-,hpos,-⟩
  · have hlo := (h.times u k t (h.live u k t hc)).1
    simp only [epoch] at hlo
    omega
  · omega

/-- Taking the old key path out of the directory of the key takes the current one out of the
latest key paths, if there is one. -/
theorem replaced_iff (h : Refines latest maps a) (hu : NoColon u) {t : ℤ}
    (ht : maps.keyNameToTimestamp (userIdKeyName u k) = some t) {hist : Bool}
    {dir path : String} (hi : InSet maps hist dir path) :
    (hist = false ∧ dir = userIdKeyName u (getPrefix k) ∧
      path = atTimestamp (userIdKeyName u k) t) ↔
    (hist = false ∧ ∃ t', a.current (u,k) = some t' ∧ path = keyPath u k t') := by
  have hne := h.pointer_ne_zero hu ht
  have hl (dir : String) : InSet maps false dir (keyPath u k t) ↔
      dir = userIdKeyName u (getPrefix k) ∧ a.current (u,k) = some t := h.latest_keyPath hu hne
  constructor
  · rintro ⟨rfl,rfl,rfl⟩
    exact ⟨rfl,t,((hl _).mp hi).2,rfl⟩
  · rintro ⟨rfl,t',hc,rfl⟩
    have htt : t' = t := Option.some.inj ((h.timestamp_of_current hc).symm.trans ht)
    subst htt
    exact ⟨rfl,((hl dir).mp hi).1,rfl⟩

theorem update (h : Refines latest maps a) (hu : NoColon u) {now : ℤ} (hlo : epoch ≤ now)
    (hnow : latest < now) (v : V) :
    ∃ maps', update maps u k v now = (.ok (keyPath u k now),maps') ∧
      Refines now maps' (a.write (u,k) now v) := by
  cases ht : maps.keyNameToTimestamp (userIdKeyName u k) with
  | none =>
    have hk : ¬ a.Known (u,k) := (h.unwritten u k hu).mp ht
    have hc (t : ℤ) : a.current (u,k) ≠ some t := fun hc => hk (h.known_of_current hc)
    have he : BasicStorage.update maps u k v now = (.ok (keyPath u k now),
        insertPath (maintainPrefixesAlongPath (setVersion maps u k v now) u k)
          (userIdKeyName u (getPrefix k)) (keyPath u k now)) := by
      simp only [BasicStorage.update,ht,Option.getD_none,ne_eq,not_true_eq_false,false_and,
        if_true,if_false]
      rfl
    refine ⟨_,he,h.write hu hlo hnow ?_ ?_ fun hist dir path => ?_⟩
    · simp [insertPath,setVersion]
    · simp [insertPath,setVersion]
    · rw [inSet_insertPath,inSet_maintain,or_assoc]
      show (InSet maps hist dir path ∨ _) ↔ _
      simp [hc]
  | some t =>
    have hne := h.pointer_ne_zero hu ht
    have hk : a.Known (u,k) := by
      by_contra hk
      rw [(h.unwritten u k hu).mpr hk] at ht
      cases ht
    have he : BasicStorage.update maps u k v now = (.ok (keyPath u k now),insertPath
        (if atTimestamp (userIdKeyName u k) t ∈
            (prefixSet (setVersion maps u k v now) (userIdKeyName u (getPrefix k))).1
          then removeLatest (setVersion maps u k v now) (userIdKeyName u (getPrefix k))
            (atTimestamp (userIdKeyName u k) t)
          else setVersion maps u k v now)
        (userIdKeyName u (getPrefix k)) (keyPath u k now)) := by
      simp only [BasicStorage.update,ht,Option.getD_some,hne,ne_eq,not_false_eq_true,true_and,
        if_false]
      rfl
    refine ⟨_,he,h.write hu hlo hnow ?_ ?_ fun hist dir path => ?_⟩
    · split_ifs <;> rfl
    · split_ifs <;> rfl
    · rw [inSet_insertPath,inSet_replaced]
      show ((InSet maps hist dir path ∧ _) ∨ _) ↔ _
      constructor
      · rintro (⟨hi,hn⟩ | hi)
        · exact .inl ⟨hi,fun hh => hn ((h.replaced_iff hu ht hi).mpr hh)⟩
        · exact .inr (.inr hi)
      · rintro (⟨hi,hn⟩ | ⟨d,hd,rfl,rfl⟩ | hi)
        · exact .inl ⟨hi,fun hh => hn ((h.replaced_iff hu ht hi).mp hh)⟩
        · have hi := h.inSet_above hk hd hist
          refine .inl ⟨hi,fun hh => ?_⟩
          have hz := ((keyPath_inj hu hu).mp hh.2.2).2.2
          exact hne hz.symm
        · exact .inr hi

theorem delete (h : Refines latest maps a) (hu : NoColon u) {now : ℤ} (hlo : epoch ≤ now)
    (hhi : now < 2 ^ 63) :
    (a.current (u,k) = none ∧
      BasicStorage.delete maps u k now = (.error ("Key name not found: " ++ k),maps)) ∨
    (a.current (u,k) ≠ none ∧ ∃ maps', BasicStorage.delete maps u k now =
        (.ok (keyPath u k (now / 1000000000)),maps') ∧ Refines latest maps' (a.delete (u,k))) := by
  cases ht : maps.keyNameToTimestamp (userIdKeyName u k) with
  | none =>
    have hk : ¬ a.Known (u,k) := (h.unwritten u k hu).mp ht
    have hc : a.current (u,k) = none := by
      by_contra hc
      obtain ⟨t,hc⟩ := Option.ne_none_iff_exists'.mp hc
      exact hk (h.known_of_current hc)
    exact .inl ⟨hc,by simp only [BasicStorage.delete,ht]⟩
  | some t =>
    have hl := h.current_iff hu ht
    have hne := h.pointer_ne_zero hu ht
    by_cases hs : (maps.keyPathToValue (atTimestamp (userIdKeyName u k) t)).isSome
    · have hc := hl.mp hs
      have hin : InSet maps false (userIdKeyName u (getPrefix k)) (keyPath u k t) :=
        (h.latest_keyPath hu hne).mpr ⟨rfl,hc⟩
      have hsome : (maps.prefixToKeyPaths (userIdKeyName u (getPrefix k))).isSome := by
        by_contra hn
        have hnone := Option.not_isSome_iff_eq_none.mp hn
        simp [InSet,prefixSet,hnone] at hin
      have hpos : 0 < now / 1000000000 := by simp only [epoch] at hlo; omega
      have hlt : now / 1000000000 < epoch := by simp only [epoch]; omega
      have he : BasicStorage.delete maps u k now = (.ok (keyPath u k (now / 1000000000)),
          let maps := { maps with
            keyNameToTimestamp := Function.update maps.keyNameToTimestamp (userIdKeyName u k)
              (some (now / 1000000000)) }
          if atTimestamp (userIdKeyName u k) t ∈
              (prefixSet maps (userIdKeyName u (getPrefix k))).1
            then removeLatest maps (userIdKeyName u (getPrefix k))
              (atTimestamp (userIdKeyName u k) t)
            else maps) := by
        have hsome' : (maps.prefixToKeyPaths (u ++ "::" ++ getPrefix k)).isSome := hsome
        simp only [BasicStorage.delete,ht,hs,hsome',hne,ne_eq,not_false_eq_true,true_and,if_true]
        rfl
      refine .inr ⟨by simp [hc],_,he,h.erase hu hc hpos hlt ?_ ?_ fun hist dir path => ?_⟩
      · dsimp only
        split_ifs <;> rfl
      · dsimp only
        split_ifs <;> rfl
      · dsimp only
        rw [inSet_replaced]
        show (InSet maps hist dir path ∧ _) ↔ _
        refine and_congr_right fun hi => not_congr ?_
        rw [h.replaced_iff hu ht hi]
        simp [hc]
    · have hc : a.current (u,k) = none := by
        rcases h.pointer u k t hu ht with hc | ⟨hc,-⟩
        · exact absurd (hl.mpr hc) hs
        · exact hc
      refine .inl ⟨hc,?_⟩
      simp only [BasicStorage.delete,ht,hs]
      rfl

end Refines

end BasicStorage
end CoLinkServer
