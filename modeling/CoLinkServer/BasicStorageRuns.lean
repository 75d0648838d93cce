import CoLinkServer.BasicStorageRefinement

/-! What a run of storage calls leaves behind, read off the log of the calls: which entries
can be read, which calls fail, and what a directory lists. -/
namespace CoLinkServer
namespace BasicStorage

open VersionedMap

variable {V : Type}

/-- A reader that collects one entry for each of its arguments. -/
theorem foldlM_insert {ι : Type} {f : Entries V → ι → Except String (Entries V)}
    {g : ι → Except String (String × V)}
    (hf : ∀ r i, f r i = (g i).map fun e => r.insert e.1 e.2)
    (hg : ∀ i j p v w, g i = .ok (p,v) → g j = .ok (p,w) → v = w) (is : List ι)
    (acc : Entries V) :
    ((∀ i ∈ is, ∃ e, g i = .ok e) → ∃ entries, is.foldlM f acc = .ok entries ∧
      ∀ p v, entries.lookup p = some v ↔ (∃ i ∈ is, g i = .ok (p,v)) ∨
        ((∀ i ∈ is, ∀ w, g i ≠ .ok (p,w)) ∧ acc.lookup p = some v)) ∧
    ((∃ i ∈ is, ∃ e, g i = .error e) → ∃ e, is.foldlM f acc = .error e) := by
  induction is generalizing acc with
  | nil => exact ⟨fun _ => ⟨acc,rfl,by simp⟩,by simp⟩
  | cons i is ih =>
    rw [List.foldlM_cons,hf]
    cases hi : g i with
    | error e =>
      refine ⟨fun h => ?_,fun _ => ⟨e,rfl⟩⟩
      obtain ⟨e',he'⟩ := h i (by simp)
      rw [hi] at he'
      cases he'
    | ok e =>
      obtain ⟨p,v⟩ := e
      obtain ⟨ihok,iherr⟩ := ih (acc.insert p v)
      constructor
      · intro h
        obtain ⟨entries,he,hl⟩ := ihok fun j hj => h j (by simp [hj])
        refine ⟨entries,he,fun p' v' => ?_⟩
        rw [hl]
        by_cases hp : p' = p
        · subst hp
          have hv : v = v' ↔ g i = .ok (p',v') := by simp [hi]
          rw [AList.lookup_insert,Option.some.injEq,hv]
          constructor
          · rintro (⟨j,hj,hgj⟩ | ⟨-,hgi⟩)
            · exact .inl ⟨j,by simp [hj],hgj⟩
            · exact .inl ⟨i,by simp,hgi⟩
          · rintro (⟨j,hj,hgj⟩ | ⟨hn,-⟩)
            · by_cases hex : ∃ j ∈ is, g j = .ok (p',v')
              · exact .inl hex
              · refine .inr ⟨fun j' hj' w hw => ?_,?_⟩
                · have hw' := hg j' j p' w v' hw hgj
                  exact hex ⟨j',hj',by rw [hw,hw']⟩
                · rcases List.mem_cons.mp hj with rfl | hj
                  · exact hgj
                  · exact absurd ⟨j,hj,hgj⟩ hex
            · exact absurd hi (hn i (by simp) v)
        · rw [AList.lookup_insert_ne hp]
          have hgi (w : V) : g i ≠ .ok (p',w) := by
            rw [hi]
            intro he
            exact hp (by simpa [eq_comm] using (Prod.mk.inj (Except.ok.inj he)).1)
          simp [hgi]
      · rintro ⟨j,hj,e,hje⟩
        refine iherr ⟨j,?_,e,hje⟩
        rcases List.mem_cons.mp hj with rfl | hj
        · rw [hi] at hje
          cases hje
        · exact hj

/-- A batch of key paths is read entirely or not at all. -/
theorem readFromKeyPaths_cases (maps : StorageMap V) (paths : List String) :
    ((∀ path ∈ paths, maps.keyPathToValue path ≠ none) → ∃ entries,
      readFromKeyPaths maps paths = .ok entries ∧ ∀ path v,
        entries.lookup path = some v ↔ path ∈ paths ∧ maps.keyPathToValue path = some v) ∧
    ((∃ path ∈ paths, maps.keyPathToValue path = none) →
      ∃ e, readFromKeyPaths maps paths = .error e) := by
  let g (path : String) : Except String (String × V) :=
    (maps.keyPathToValue path).elim (.error ("Key path not found: " ++ path)) fun v => .ok (path,v)
  have hgi (path p : String) (v : V) :
      g path = .ok (p,v) ↔ path = p ∧ maps.keyPathToValue p = some v := by
    cases hv : maps.keyPathToValue path with
    | some w => simp only [g,hv,Option.elim_some,Except.ok.injEq,Prod.mk.injEq]; grind
    | none => simp only [g,hv,Option.elim_none]; grind
  have hfold : readFromKeyPaths maps paths = paths.foldlM
      (fun r path => (g path).map fun e => AList.insert e.1 e.2 r) ∅ := by
    unfold readFromKeyPaths
    congr 1
    funext r path
    cases hv : maps.keyPathToValue path <;> simp [g,hv,Except.map]
  have hf := foldlM_insert (g := g) (fun r i => rfl) (fun i j p v w hi hj => by
    have hv := ((hgi i p v).mp hi).2.symm.trans ((hgi j p w).mp hj).2
    exact Option.some.inj hv) paths ∅
  rw [← hfold] at hf
  constructor
  · intro hp
    obtain ⟨entries,he,hl⟩ := hf.1 fun path hpath => by
      obtain ⟨v,hv⟩ := Option.ne_none_iff_exists'.mp (hp path hpath)
      exact ⟨(path,v),(hgi _ _ _).mpr ⟨rfl,hv⟩⟩
    refine ⟨entries,he,fun path v => ?_⟩
    rw [hl]
    simp only [hgi]
    constructor
    · rintro (⟨i,hi,rfl,hv⟩ | ⟨-,hv⟩)
      · exact ⟨hi,hv⟩
      · simp at hv
    · rintro ⟨hpath,hv⟩
      exact .inl ⟨path,hpath,rfl,hv⟩
  · rintro ⟨path,hpath,hn⟩
    exact hf.2 ⟨path,hpath,"Key path not found: " ++ path,by simp [g,hn]⟩

variable {latest : ℤ} {maps : StorageMap V} {a : Content V}

theorem Refines.readFromKeyPaths (h : Refines latest maps a) (paths : List String)
    (hp : ∀ path ∈ paths, ∃ u k t, path = keyPath u k t ∧ a.version (u,k) t ≠ none) :
    ∃ entries, readFromKeyPaths maps paths = .ok entries ∧ ∀ path v,
      entries.lookup path = some v ↔
        path ∈ paths ∧ ∃ u k t, path = keyPath u k t ∧ a.version (u,k) t = some v := by
  obtain ⟨entries,he,hl⟩ := (readFromKeyPaths_cases maps paths).1 fun path hpath => by
    obtain ⟨u,k,t,rfl,hv⟩ := hp path hpath
    obtain ⟨v,hv⟩ := Option.ne_none_iff_exists'.mp hv
    simp [(h.value _ v).mpr ⟨u,k,t,rfl,hv⟩]
  refine ⟨entries,he,fun path v => ?_⟩
  rw [hl,h.value]

theorem Refines.readFromKeyNames (h : Refines latest maps a) {u : String} (hu : NoColon u)
    (ks : List String) :
    ((∀ k ∈ ks, a.current (u,k) ≠ none) → ∃ entries,
      readFromKeyNames maps u ks = .ok entries ∧ ∀ path v, entries.lookup path = some v ↔
        ∃ k ∈ ks, ∃ t, a.current (u,k) = some t ∧ a.version (u,k) t = some v ∧
          path = keyPath u k t) ∧
    ((∃ k ∈ ks, a.current (u,k) = none) → ∃ e, readFromKeyNames maps u ks = .error e) := by
  let g (k : String) : Except String (String × V) :=
    (maps.keyNameToTimestamp (userIdKeyName u k)).elim (.error ("Key name not found: " ++ k))
      fun t => (maps.keyPathToValue (keyPath u k t)).elim
        (.error ("Entry have been deleted: " ++ keyPath u k t)) fun v => .ok (keyPath u k t,v)
  have hlive (k : String) (t : ℤ) (hc : a.current (u,k) = some t) :
      ∃ v, a.version (u,k) t = some v ∧ g k = .ok (keyPath u k t,v) := by
    obtain ⟨v,hv⟩ := Option.ne_none_iff_exists'.mp (h.live u k t hc)
    have hvp : maps.keyPathToValue (keyPath u k t) = some v := by rw [h.value_keyPath hu,hv]
    exact ⟨v,hv,by simp [g,h.timestamp_of_current hc,hvp]⟩
  have hdead (k : String) (hc : a.current (u,k) = none) : ∃ e, g k = .error e := by
    cases ht : maps.keyNameToTimestamp (userIdKeyName u k) with
    | none => exact ⟨"Key name not found: " ++ k,by simp [g,ht]⟩
    | some t =>
      have hiff := h.current_iff hu ht
      rw [hc,atTimestamp_userIdKeyName] at hiff
      have hnone : maps.keyPathToValue (keyPath u k t) = none := by
        cases hv : maps.keyPathToValue (keyPath u k t) with
        | none => rfl
        | some v => simp [hv] at hiff
      exact ⟨"Entry have been deleted: " ++ keyPath u k t,by simp [g,ht,hnone]⟩
  have hgi (k path : String) (v : V) : g k = .ok (path,v) ↔
      ∃ t, a.current (u,k) = some t ∧ a.version (u,k) t = some v ∧ path = keyPath u k t := by
    cases hc : a.current (u,k) with
    | none =>
      obtain ⟨e,he⟩ := hdead k hc
      simp [he]
    | some t =>
      obtain ⟨w,hw,he⟩ := hlive k t hc
      rw [he]
      constructor
      · intro hh
        obtain ⟨rfl,rfl⟩ := Prod.mk.inj (Except.ok.inj hh)
        exact ⟨t,rfl,hw,rfl⟩
      · rintro ⟨t',ht,hv,rfl⟩
        obtain rfl := Option.some.inj ht
        rw [hw] at hv
        rw [Option.some.inj hv]
  have hfold : BasicStorage.readFromKeyNames maps u ks = ks.foldlM
      (fun r k => (g k).map fun e => AList.insert e.1 e.2 r) ∅ := by
    unfold BasicStorage.readFromKeyNames
    congr 1
    funext r k
    cases ht : maps.keyNameToTimestamp (userIdKeyName u k) with
    | none => simp [g,ht,Except.map]
    | some t => cases hv : maps.keyPathToValue (keyPath u k t) <;> simp [g,ht,hv,Except.map]
  have hf := foldlM_insert (g := g) (fun r k => rfl) (fun i j p v w hi hj => by
    obtain ⟨t,-,hv,hp⟩ := (hgi i p v).mp hi
    obtain ⟨t',-,hw,hp'⟩ := (hgi j p w).mp hj
    obtain ⟨-,rfl,rfl⟩ := (keyPath_inj hu hu).mp (hp.symm.trans hp')
    exact Option.some.inj (hv.symm.trans hw)) ks ∅
  rw [← hfold] at hf
  constructor
  · intro hks
    obtain ⟨entries,he,hl⟩ := hf.1 fun k hk => by
      obtain ⟨t,hc⟩ := Option.ne_none_iff_exists'.mp (hks k hk)
      obtain ⟨v,-,hgk⟩ := hlive k t hc
      exact ⟨_,hgk⟩
    refine ⟨entries,he,fun path v => ?_⟩
    rw [hl]
    simp only [hgi]
    simp
  · rintro ⟨k,hk,hc⟩
    exact hf.2 ⟨k,hk,hdead k hc⟩

/-- The change a call made, if it succeeded. -/
def Done.change (d : Done V) : Option (Change (String × String) ℤ V) :=
  match d.result,d.call with
  | .error _,_ => none
  | .ok _,.create u k v => some (.write (u,k) d.now v)
  | .ok _,.update u k v => some (.write (u,k) d.now v)
  | .ok _,.delete u k => some (.delete (u,k))

def changes (log : List (Done V)) : List (Change (String × String) ℤ V) :=
  log.filterMap Done.change

theorem changes_concat (log : List (Done V)) (d : Done V) :
    changes (log ++ [d]) = changes log ++ d.change.toList := by
  cases h : d.change <;> simp [changes,h]

/-- Calls of users without a colon, at times that are plausible as nanoseconds since 1970
and never repeat. -/
structure Clocked (calls : List (ℤ × Call V)) : Prop where
  users : ∀ c ∈ calls, NoColon c.2.userId
  range : ∀ c ∈ calls, epoch ≤ c.1 ∧ c.1 < 2 ^ 63
  increasing : calls.Pairwise fun c c' => c.1 < c'.1

theorem Clocked.concat {calls : List (ℤ × Call V)} {now : ℤ} {call : Call V}
    (h : Clocked (calls ++ [(now,call)])) :
    Clocked calls ∧ NoColon call.userId ∧ epoch ≤ now ∧ now < 2 ^ 63 ∧ ∀ c ∈ calls, c.1 < now := by
  obtain ⟨hc,-,hlt⟩ := List.pairwise_append.mp h.increasing
  have hl : (now,call) ∈ calls ++ [(now,call)] := by simp
  refine ⟨⟨fun c hm => h.users c (by simp [hm]),fun c hm => h.range c (by simp [hm]),hc⟩,
    h.users _ hl,(h.range _ hl).1,(h.range _ hl).2,fun c hm => hlt c hm (now,call) (by simp)⟩

/-- One call: the maps go on representing the content, changed as the call reports. -/
theorem Refines.perform (h : Refines latest maps a) {now : ℤ} {call : Call V}
    (hu : NoColon call.userId) (hlo : epoch ≤ now) (hhi : now < 2 ^ 63) (hnow : latest < now) :
    Refines now (perform maps now call).2
      ((Done.change ⟨now,call,(perform maps now call).1⟩).elim a a.apply) := by
  cases call with
  | create u k v =>
    rcases h.create (u := u) (k := k) hu hlo hnow v with ⟨-,he⟩ | ⟨-,maps',he,hr⟩
    · simp only [BasicStorage.perform,he]
      exact h.mono hnow.le
    · simp only [BasicStorage.perform,he]
      exact hr
  | update u k v =>
    obtain ⟨maps',he,hr⟩ := h.update (u := u) (k := k) hu hlo hnow v
    simp only [BasicStorage.perform,he]
    exact hr
  | delete u k =>
    rcases h.delete (u := u) (k := k) hu hlo hhi with ⟨-,he⟩ | ⟨-,maps',he,hr⟩
    · simp only [BasicStorage.perform,he]
      exact h.mono hnow.le
    · simp only [BasicStorage.perform,he]
      exact hr.mono hnow.le

theorem run_refines {calls : List (ℤ × Call V)} (h : Clocked calls) {next : ℤ}
    (hlo : epoch ≤ next) (hnext : ∀ c ∈ calls, c.1 < next) :
    ∃ latest < next, Refines latest (run calls).1 (replay (changes (run calls).2)) := by
  induction calls using List.reverseRecOn generalizing next with
  | nil =>
    have hpos : (0 : ℤ) < next := by simp only [epoch] at hlo; omega
    exact ⟨0,hpos,refines_empty⟩
  | append_singleton calls c ih =>
    obtain ⟨now,call⟩ := c
    obtain ⟨hc,hu,hlo',hhi',hlt⟩ := h.concat
    obtain ⟨latest,hl,hr⟩ := ih hc hlo' hlt
    refine ⟨now,hnext (now,call) (by simp),?_⟩
    have hp := hr.perform hu hlo' hhi' hl
    rw [run_concat,changes_concat]
    cases hd : Done.change ⟨now,call,(BasicStorage.perform (run calls).1 now call).1⟩ with
    | none => simpa [hd] using hp
    | some c => simpa [hd,replay_concat] using hp

theorem now_of_mem_run {calls : List (ℤ × Call V)} {d : Done V} (h : d ∈ (run calls).2) :
    (d.now,d.call) ∈ calls := by
  induction calls using List.reverseRecOn with
  | nil => simp [run] at h
  | append_singleton calls c ih =>
    rw [run_concat,List.mem_append,List.mem_singleton] at h
    rcases h with h | rfl
    · exact List.mem_append_left _ (ih h)
    · simp

theorem result_of_mem_run {calls : List (ℤ × Call V)} {d : Done V} (h : d ∈ (run calls).2)
    {path u k : String} {v : V} (hr : d.result = .ok path)
    (hc : d.call = .create u k v ∨ d.call = .update u k v) : path = keyPath u k d.now := by
  induction calls using List.reverseRecOn with
  | nil => simp [run] at h
  | append_singleton calls c ih =>
    rw [run_concat,List.mem_append,List.mem_singleton] at h
    rcases h with h | rfl
    · exact ih h
    · obtain ⟨now,call⟩ := c
      rcases hc with rfl | rfl
      · simp only [BasicStorage.perform,BasicStorage.create] at hr
        split at hr
        · split_ifs at hr
          exact (Except.ok.inj hr).symm
        · exact (Except.ok.inj hr).symm
      · exact (Except.ok.inj hr).symm

theorem timesFresh_changes {calls : List (ℤ × Call V)} (h : Clocked calls) :
    TimesFresh (changes (run calls).2) := by
  induction calls using List.reverseRecOn with
  | nil => exact List.Pairwise.nil
  | append_singleton calls c ih =>
    obtain ⟨now,call⟩ := c
    obtain ⟨hc,-,-,-,hlt⟩ := h.concat
    rw [run_concat,changes_concat]
    refine List.pairwise_append.mpr ⟨ih hc,by cases Done.change _ <;> simp,?_⟩
    rintro c hm c' hm' x t v v' rfl rfl
    obtain ⟨d,hd,hdc⟩ := List.mem_filterMap.mp hm
    have hdt : d.now = t := by
      unfold Done.change at hdc
      grind
    have hnt : now = t := by
      have hh := Option.mem_toList.mp hm'
      unfold Done.change at hh
      grind
    have hlt' := hlt _ (now_of_mem_run hd)
    dsimp only at hlt'
    omega

/-- The time and the value of the last successful operation on a key, unless that was a
deletion or there was none. -/
def lastWrite (log : List (Done V)) (u k : String) : Option (ℤ × V) :=
  match lastChange (changes log) (u,k) with
  | some (.write _ t v) => some (t,v)
  | _ => none

/-- Some `create` or `update` with this value has returned `path`. -/
def Returned (log : List (Done V)) (u k path : String) (v : V) : Prop :=
  ∃ d ∈ log, d.result = .ok path ∧ (d.call = .create u k v ∨ d.call = .update u k v)

theorem lastWrite_eq_some {log : List (Done V)} {u k : String} {t : ℤ} {v : V} :
    lastWrite log u k = some (t,v) ↔ lastChange (changes log) (u,k) = some (.write (u,k) t v) := by
  unfold lastWrite
  cases h : lastChange (changes log) (u,k) with
  | none => simp
  | some c =>
    have hk := (mem_of_lastChange h).2
    cases c with
    | write x t' v' =>
      have hx : x = (u,k) := hk
      simp [hx]
    | delete x => simp

theorem current_eq_some {log : List (Done V)} {u k : String} {t : ℤ} :
    (replay (changes log)).current (u,k) = some t ↔ ∃ v, lastWrite log u k = some (t,v) := by
  rw [current_replay]
  simp only [lastWrite_eq_some]

theorem current_eq_none {log : List (Done V)} {u k : String} :
    (replay (changes log)).current (u,k) = none ↔ lastWrite log u k = none := by
  simp only [Option.eq_none_iff_forall_ne_some,ne_eq,current_eq_some,Prod.forall]
  grind

theorem mem_changes {log : List (Done V)} {u k : String} {t : ℤ} {v : V} :
    .write (u,k) t v ∈ changes log ↔ ∃ d ∈ log, d.now = t ∧ (∃ path, d.result = .ok path) ∧
      (d.call = .create u k v ∨ d.call = .update u k v) := by
  simp only [changes,List.mem_filterMap]
  refine exists_congr fun d => and_congr_right fun _ => ?_
  obtain ⟨now,call,result⟩ := d
  cases result with
  | error e => simp [Done.change]
  | ok path => cases call <;> simp [Done.change] <;> grind

theorem version_eq_some {calls : List (ℤ × Call V)} (h : Clocked calls) {u k path : String}
    {v : V} : (∃ t, path = keyPath u k t ∧
      (replay (changes (run calls).2)).version (u,k) t = some v) ↔
      Returned (run calls).2 u k path v := by
  simp only [version_replay (timesFresh_changes h),mem_changes]
  constructor
  · rintro ⟨_,rfl,d,hd,rfl,⟨path,hr⟩,hc⟩
    exact ⟨d,hd,by rw [hr,result_of_mem_run hd hr hc],hc⟩
  · rintro ⟨d,hd,hr,hc⟩
    exact ⟨d.now,result_of_mem_run hd hr hc,d,hd,rfl,⟨path,hr⟩,hc⟩

theorem lastWrite_iff {calls : List (ℤ × Call V)} (h : Clocked calls) {u k : String} {t : ℤ}
    {v : V} : lastWrite (run calls).2 u k = some (t,v) ↔
      (replay (changes (run calls).2)).current (u,k) = some t ∧
        (replay (changes (run calls).2)).version (u,k) t = some v := by
  have hv (w : V) (hw : lastWrite (run calls).2 u k = some (t,w)) :
      (replay (changes (run calls).2)).version (u,k) t = some w :=
    (version_replay (timesFresh_changes h) _ _ _).mpr
      (mem_of_lastChange (lastWrite_eq_some.mp hw)).1
  rw [current_eq_some]
  constructor
  · intro hw
    exact ⟨⟨v,hw⟩,hv v hw⟩
  · rintro ⟨⟨w,hw⟩,hv'⟩
    rw [hv w hw] at hv'
    rwa [← Option.some.inj hv']

theorem perform_error {maps : StorageMap V} {now : ℤ} {call : Call V} {e : String}
    (h : (perform maps now call).1 = .error e) : (perform maps now call).2 = maps := by
  cases call with
  | create u k v =>
    simp only [perform,create] at h ⊢
    split at h
    · split_ifs at h with hs
      simp [hs]
    · cases h
  | update u k v => cases h
  | delete u k =>
    simp only [perform,delete] at h ⊢
    split at h
    · split_ifs at h with hs
      simp [hs]
    · rfl

theorem Clocked.bound {calls : List (ℤ × Call V)} (h : Clocked calls) :
    epoch ≤ 2 ^ 63 ∧ ∀ c ∈ calls, c.1 < 2 ^ 63 :=
  ⟨by simp [epoch],fun c hc => (h.range c hc).2⟩

/-- The storage is a map that keeps its past: reads by key name give the last write of each
key and fail on a deleted or unwritten one, reads by key path give what was written, a
`create` fails on live keys and a `delete` on the others, and a failed call changes nothing. -/
theorem run_versioned (calls : List (ℤ × Call V)) (h : Clocked calls) :
    (∀ u ks, NoColon u →
      ((∀ k ∈ ks, lastWrite (run calls).2 u k ≠ none) → ∃ entries,
        readFromKeyNames (run calls).1 u ks = .ok entries ∧ ∀ path v,
          entries.lookup path = some v ↔ ∃ k ∈ ks, ∃ t,
            lastWrite (run calls).2 u k = some (t,v) ∧ path = keyPath u k t) ∧
      ((∃ k ∈ ks, lastWrite (run calls).2 u k = none) →
        ∃ e, readFromKeyNames (run calls).1 u ks = .error e)) ∧
    (∀ paths, (∀ path ∈ paths, ∃ u k v, Returned (run calls).2 u k path v) → ∃ entries,
      readFromKeyPaths (run calls).1 paths = .ok entries ∧ ∀ path ∈ paths, ∀ u k v,
        Returned (run calls).2 u k path v → entries.lookup path = some v) ∧
    (∀ now u k v, Clocked (calls ++ [(now,.create u k v)]) →
      ((∃ e, (create (run calls).1 u k v now).1 = .error e) ↔
        lastWrite (run calls).2 u k ≠ none)) ∧
    (∀ now u k, Clocked (calls ++ [(now,.delete u k)]) →
      ((∃ e, (delete (run calls).1 u k now).1 = .error e) ↔
        lastWrite (run calls).2 u k = none)) ∧
    ∀ now call e, (perform (run calls).1 now call).1 = .error e →
      (perform (run calls).1 now call).2 = (run calls).1 := by
  obtain ⟨latest,-,hr⟩ := run_refines h h.bound.1 h.bound.2
  refine ⟨fun u ks hu => ⟨fun hks => ?names,fun hks => ?missing⟩,fun paths hpaths => ?paths,
    fun now u k v hc => ?create,fun now u k hc => ?delete,fun now call e he => ?failed⟩
  case names =>
    obtain ⟨entries,he,hl⟩ := (hr.readFromKeyNames hu ks).1 fun k hk hn =>
      hks k hk (current_eq_none.mp hn)
    refine ⟨entries,he,fun path v => (hl path v).trans ?_⟩
    refine exists_congr fun k => and_congr_right fun _ => exists_congr fun t => ?_
    rw [lastWrite_iff h,and_assoc]
  case missing =>
    obtain ⟨k,hk,hn⟩ := hks
    exact (hr.readFromKeyNames hu ks).2 ⟨k,hk,current_eq_none.mpr hn⟩
  case paths =>
    obtain ⟨entries,he,hl⟩ := hr.readFromKeyPaths paths fun path hp => by
      obtain ⟨u,k,v,hd⟩ := hpaths path hp
      obtain ⟨t,hpath,hv⟩ := (version_eq_some h).mpr hd
      exact ⟨u,k,t,hpath,by simp [hv]⟩
    refine ⟨entries,he,fun path hp u k v hd => ?_⟩
    obtain ⟨t,hpath,hv⟩ := (version_eq_some h).mpr hd
    exact (hl path v).mpr ⟨hp,u,k,t,hpath,hv⟩
  case create =>
    obtain ⟨-,hu,hlo,-,hlt⟩ := hc.concat
    obtain ⟨latest,hnow,hr⟩ := run_refines h hlo hlt
    rw [ne_eq,← current_eq_none]
    rcases hr.create (u := u) (k := k) hu hlo hnow v with ⟨hl,he⟩ | ⟨hl,maps',he,-⟩
    · simp [he,hl]
    · simp [he,hl]
  case delete =>
    obtain ⟨-,hu,hlo,hhi,hlt⟩ := hc.concat
    rw [← current_eq_none]
    rcases hr.delete (u := u) (k := k) hu hlo hhi with ⟨hl,he⟩ | ⟨hl,maps',he,-⟩
    · simp [he,hl]
    · simp [he,hl]
  case failed => exact perform_error he

/-- The entry of a key that was created, written again, deleted and created once more. -/
def sampleCalls : List (ℤ × Call ℕ) :=
  [(1700000000000000000,.create "alice" "a:b" 1),(1700000000000000001,.update "alice" "a:b" 2),
    (1700000000000000002,.delete "alice" "a:b"),(1700000000000000003,.create "alice" "a:b" 3)]

theorem sampleCalls_clocked : Clocked sampleCalls := by
  refine ⟨?_,?_,?_⟩
  · simp only [sampleCalls,List.forall_mem_cons]
    decide
  · simp [sampleCalls,epoch]
  · simp [sampleCalls]

theorem run_versioned_sample : ∃ entries,
    readFromKeyPaths (run sampleCalls).1 [keyPath "alice" "a:b" 1700000000000000001] =
      .ok entries ∧ entries.lookup (keyPath "alice" "a:b" 1700000000000000001) = some 2 := by
  have hd : Returned (run sampleCalls).2 "alice" "a:b"
      (keyPath "alice" "a:b" 1700000000000000001) 2 :=
    ⟨⟨1700000000000000001,.update "alice" "a:b" 2,
      .ok (keyPath "alice" "a:b" 1700000000000000001)⟩,
      by simp [run,sampleCalls,perform,update],rfl,.inr rfl⟩
  obtain ⟨entries,he,hl⟩ := (run_versioned sampleCalls sampleCalls_clocked).2.1
    [keyPath "alice" "a:b" 1700000000000000001]
    fun path hp => ⟨_,_,_,List.mem_singleton.mp hp ▸ hd⟩
  exact ⟨entries,he,hl _ (by simp) _ _ _ hd⟩

/-- Some `create` or `update` of the key has succeeded. -/
def Written (log : List (Done V)) (u k : String) : Prop := ∃ path v, Returned log u k path v

/-- The placeholders in `p`: one for each directory in it below which a key was written. -/
def Placeholder (log : List (Done V)) (p path : String) : Prop :=
  ∃ u d s, path = userIdKeyName u d ++ "@0" ∧ NoColon s ∧ userIdKeyName u d = p ++ ":" ++ s ∧
    ∃ k, Written log u k ∧ Above d k

theorem mem_listKeys {maps : StorageMap V} {p path : String} {hist : Bool} :
    path ∈ listKeys maps p hist ↔ InSet maps hist (p ++ ":") path := by
  cases h : maps.prefixToKeyPaths (p ++ ":") with
  | none => simp [listKeys,h,InSet,prefixSet]
  | some sets => simp [listKeys,h,InSet,prefixSet]

theorem known_iff {calls : List (ℤ × Call V)} (h : Clocked calls) {u k : String} :
    (replay (changes (run calls).2)).Known (u,k) ↔ Written (run calls).2 u k := by
  constructor
  · rintro ⟨t,ht⟩
    obtain ⟨v,hv⟩ := Option.ne_none_iff_exists'.mp ht
    exact ⟨_,v,(version_eq_some h).mp ⟨t,rfl,hv⟩⟩
  · rintro ⟨path,v,hd⟩
    obtain ⟨t,-,hv⟩ := (version_eq_some h).mpr hd
    exact ⟨t,by simp [hv]⟩

theorem atTimestamp_zero (u d : String) : userIdKeyName u d ++ "@0" = keyPath u d 0 := by
  rw [← atTimestamp_userIdKeyName,atTimestamp,String.append_assoc]
  rfl

theorem placeholder_iff {calls : List (ℤ × Call V)} (h : Clocked calls) {p path : String} :
    (∃ u d, p ++ ":" = userIdKeyName u (getPrefix d) ∧ path = keyPath u d 0 ∧
      Directory (replay (changes (run calls).2)) u d) ↔ Placeholder (run calls).2 p path := by
  constructor
  · rintro ⟨u,d,hd,rfl,k,hk,ha⟩
    obtain ⟨s,hs,hp⟩ := getPrefix_eq_iff.mp hd.symm
    exact ⟨u,d,s,(atTimestamp_zero u d).symm,hs,hp,k,(known_iff h).mp hk,ha⟩
  · rintro ⟨u,d,s,rfl,hs,hp,k,hk,ha⟩
    have hd := getPrefix_eq_iff.mpr ⟨s,hs,hp⟩
    exact ⟨u,d,hd.symm,atTimestamp_zero u d,k,(known_iff h).mpr hk,ha⟩

/-- A directory lists exactly one level. Its history holds every key path returned for a key
in it, its latest key paths those of the live keys, and both a placeholder for each directory
in it. -/
theorem listKeys_one_level (calls : List (ℤ × Call V)) (h : Clocked calls) (p : String) :
    (∀ path, path ∈ listKeys (run calls).1 p true ↔
      (∃ u k v s, Returned (run calls).2 u k path v ∧ NoColon s ∧
        userIdKeyName u k = p ++ ":" ++ s) ∨ Placeholder (run calls).2 p path) ∧
    (∀ path, path ∈ listKeys (run calls).1 p false ↔
      (∃ u k t v s, lastWrite (run calls).2 u k = some (t,v) ∧ path = keyPath u k t ∧
        NoColon s ∧ userIdKeyName u k = p ++ ":" ++ s) ∨ Placeholder (run calls).2 p path) ∧
    ∀ u k t path v, NoColon u → Returned (run calls).2 u k path v → path = keyPath u k t →
      path ∈ listKeys (run calls).1 p false → lastWrite (run calls).2 u k = some (t,v) := by
  obtain ⟨latest,-,hr⟩ := run_refines h h.bound.1 h.bound.2
  have hlatest (path : String) : path ∈ listKeys (run calls).1 p false ↔
      (∃ u k t v s, lastWrite (run calls).2 u k = some (t,v) ∧ path = keyPath u k t ∧
        NoColon s ∧ userIdKeyName u k = p ++ ":" ++ s) ∨ Placeholder (run calls).2 p path := by
    rw [mem_listKeys,hr.sets,← placeholder_iff h]
    constructor
    · rintro ⟨u,k,t,hd,hp,ht | ⟨rfl,ht⟩⟩
      · obtain ⟨v,hw⟩ := current_eq_some.mp (by simpa using ht)
        obtain ⟨s,hs,hk⟩ := getPrefix_eq_iff.mp hd.symm
        exact .inl ⟨u,k,t,v,s,hw,hp,hs,hk⟩
      · exact .inr ⟨u,k,hd,hp,ht⟩
    · rintro (⟨u,k,t,v,s,hw,hp,hs,hk⟩ | ⟨u,d,hd,hp,ht⟩)
      · have hc := current_eq_some.mpr ⟨v,hw⟩
        exact ⟨u,k,t,(getPrefix_eq_iff.mpr ⟨s,hs,hk⟩).symm,hp,.inl (by simpa using hc)⟩
      · exact ⟨u,d,0,hd,hp,.inr ⟨rfl,ht⟩⟩
  refine ⟨fun path => ?_,hlatest,fun u k t path v hu hd hp hm => ?_⟩
  · rw [mem_listKeys,hr.sets,← placeholder_iff h]
    constructor
    · rintro ⟨u,k,t,hd,hp,ht | ⟨rfl,ht⟩⟩
      · have ht' : (replay (changes (run calls).2)).version (u,k) t ≠ none := by simpa using ht
        obtain ⟨v,hv⟩ := Option.ne_none_iff_exists'.mp ht'
        obtain ⟨s,hs,hk⟩ := getPrefix_eq_iff.mp hd.symm
        exact .inl ⟨u,k,v,s,(version_eq_some h).mp ⟨t,hp,hv⟩,hs,hk⟩
      · exact .inr ⟨u,k,hd,hp,ht⟩
    · rintro (⟨u,k,v,s,hd,hs,hk⟩ | ⟨u,d,hd,hp,ht⟩)
      · obtain ⟨t,hp,hv⟩ := (version_eq_some h).mpr hd
        exact ⟨u,k,t,(getPrefix_eq_iff.mpr ⟨s,hs,hk⟩).symm,hp,.inl (by simp [hv])⟩
      · exact ⟨u,d,0,hd,hp,.inr ⟨rfl,ht⟩⟩
  · obtain ⟨t',ht',hv⟩ := (version_eq_some h).mpr hd
    obtain ⟨-,-,rfl⟩ := (keyPath_inj hu hu).mp (hp.symm.trans ht')
    have hlo := (hr.times u k t (by simp [hv])).1
    rw [mem_listKeys,hp,hr.latest_keyPath hu (by simp only [epoch] at hlo; omega)] at hm
    exact (lastWrite_iff h).mpr ⟨hm.2,hv⟩

theorem listKeys_one_level_sample :
    keyPath "alice" "a:b" 1700000000000000001 ∈ listKeys (run sampleCalls).1 "alice::a" true := by
  have hd : Returned (run sampleCalls).2 "alice" "a:b"
      (keyPath "alice" "a:b" 1700000000000000001) 2 :=
    ⟨⟨1700000000000000001,.update "alice" "a:b" 2,
      .ok (keyPath "alice" "a:b" 1700000000000000001)⟩,
      by simp [run,sampleCalls,perform,update],rfl,.inr rfl⟩
  exact ((listKeys_one_level sampleCalls sampleCalls_clocked "alice::a").1 _).mpr
    (.inl ⟨"alice","a:b",2,"b",hd,by decide,by decide⟩)

end BasicStorage
end CoLinkServer
