import CoLinkServer.BasicStorageRuns

/-! Timestamps as version numbers: how far the versions of a key are ordered by them, and when
a version stays what it was. Nothing is assumed of the user ids here, so an entry goes by its
name `{user_id}::{key_name}`. -/
namespace CoLinkServer
namespace BasicStorage

variable {V : Type}

/-- Clock readings that never repeat, plausible as nanoseconds since 1970. -/
structure Ticking (calls : List (ℤ × Call V)) : Prop where
  range : ∀ c ∈ calls, epoch ≤ c.1 ∧ c.1 < 2 ^ 63
  increasing : calls.Pairwise fun c c' => c.1 < c'.1

theorem Ticking.concat {calls : List (ℤ × Call V)} {now : ℤ} {call : Call V}
    (h : Ticking (calls ++ [(now,call)])) :
    Ticking calls ∧ epoch ≤ now ∧ now < 2 ^ 63 ∧ ∀ c ∈ calls, c.1 < now := by
  obtain ⟨hc,-,hlt⟩ := List.pairwise_append.mp h.increasing
  have hl : (now,call) ∈ calls ++ [(now,call)] := by simp
  exact ⟨⟨fun c hm => h.range c (by simp [hm]),hc⟩,(h.range _ hl).1,(h.range _ hl).2,
    fun c hm => hlt c hm (now,call) (by simp)⟩

def Call.name (call : Call V) : String := userIdKeyName call.userId call.keyName

def held (maps : StorageMap V) (call : Call V) : Option ℤ := maps.keyNameToTimestamp call.name

def stamp (now : ℤ) : Call V → ℤ
  | .create _ _ _ => now
  | .update _ _ _ => now
  | .delete _ _ => now / 1000000000

def Call.value? : Call V → Option V
  | .create _ _ v => some v
  | .update _ _ v => some v
  | .delete _ _ => none

theorem stamp_of_value {now : ℤ} {call : Call V} {v : V} (h : call.value? = some v) :
    stamp now call = now := by
  cases call with
  | create u k w => rfl
  | update u k w => rfl
  | delete u k => cases h

/-- What the storage asks of its state before it carries a call out. -/
def Accepts (maps : StorageMap V) : Call V → Prop
  | .create u k _ => value maps u k = none
  | .update _ _ _ => True
  | .delete u k => value maps u k ≠ none

theorem value_eq (maps : StorageMap V) (u k : String) :
    value maps u k = (maps.keyNameToTimestamp (userIdKeyName u k)).bind fun t =>
      maps.keyPathToValue (atTimestamp (userIdKeyName u k) t) := rfl

/-- An accepted call returns the key path of its stamp, points the entry there, and puts its
value there if it has one; a call that is not accepted fails and changes nothing. -/
theorem perform_cases (maps : StorageMap V) (now : ℤ) (call : Call V) :
    (Accepts maps call ∧
      (perform maps now call).1 = .ok (atTimestamp call.name (stamp now call)) ∧
      (perform maps now call).2.keyNameToTimestamp =
        Function.update maps.keyNameToTimestamp call.name (some (stamp now call)) ∧
      (perform maps now call).2.keyPathToValue = call.value?.elim maps.keyPathToValue fun v =>
        Function.update maps.keyPathToValue (atTimestamp call.name (stamp now call)) (some v)) ∨
    (¬ Accepts maps call ∧ (∃ e, (perform maps now call).1 = .error e) ∧
      (perform maps now call).2 = maps) := by
  cases call with
  | create u k v =>
    cases ht : maps.keyNameToTimestamp (userIdKeyName u k) with
    | none =>
      refine .inl ⟨by simp [Accepts,value_eq,ht],?_⟩
      simp only [perform,create,ht]
      exact ⟨rfl,by rw [insertPath,setVersion,maintain_timestamp]; rfl,
        by rw [insertPath,setVersion,maintain_value]; rfl⟩
    | some t =>
      cases hv : maps.keyPathToValue (atTimestamp (userIdKeyName u k) t) with
      | none =>
        refine .inl ⟨by simp [Accepts,value_eq,ht,hv],?_⟩
        simp only [perform,create,ht,hv]
        exact ⟨rfl,rfl,rfl⟩
      | some v' =>
        refine .inr ⟨by simp [Accepts,value_eq,ht,hv],?_⟩
        simp [perform,create,ht,hv]
  | update u k v =>
    have hm := update_maps (u := u) (k := k) maps v now
    exact .inl ⟨trivial,rfl,hm.2,hm.1⟩
  | delete u k =>
    cases ht : maps.keyNameToTimestamp (userIdKeyName u k) with
    | none => exact .inr ⟨by simp [Accepts,value_eq,ht],by simp [perform,delete,ht]⟩
    | some t =>
      cases hv : maps.keyPathToValue (atTimestamp (userIdKeyName u k) t) with
      | none => exact .inr ⟨by simp [Accepts,value_eq,ht,hv],by simp [perform,delete,ht,hv]⟩
      | some v =>
        refine .inl ⟨by simp [Accepts,value_eq,ht,hv],?_⟩
        simp only [perform,delete,ht,hv,Option.isSome_some,if_true]
        exact ⟨rfl,by split_ifs <;> rfl,by split_ifs <;> rfl⟩

theorem value_perform_of_name_ne (maps : StorageMap V) (now : ℤ) {call : Call V} {u k : String}
    (hne : userIdKeyName u k ≠ call.name) :
    value (perform maps now call).2 u k = value maps u k := by
  rcases perform_cases maps now call with ⟨-,-,ht,hv⟩ | ⟨-,-,hmaps⟩
  · have hpath (t : ℤ) : atTimestamp (userIdKeyName u k) t ≠ atTimestamp call.name (stamp now call) :=
      fun he => hne (atTimestamp_inj.mp he).1
    have hvalue (t : ℤ) : (perform maps now call).2.keyPathToValue (atTimestamp (userIdKeyName u k) t) =
        maps.keyPathToValue (atTimestamp (userIdKeyName u k) t) := by
      rw [hv]
      cases call.value? with
      | none => rfl
      | some v => exact Function.update_of_ne (hpath t) _ _
    simp only [value_eq,hvalue,ht,Function.update_of_ne hne]
  · rw [hmaps]

/-- The log of a run, call by call. -/
theorem mem_run_iff {calls : List (ℤ × Call V)} {d : Done V} :
    d ∈ (run calls).2 ↔ ∃ before after, calls = before ++ (d.now,d.call) :: after ∧
      d.result = (perform (run before).1 d.now d.call).1 := by
  induction calls using List.reverseRecOn with
  | nil => simp [run]
  | append_singleton calls c ih =>
    obtain ⟨now,call⟩ := c
    rw [run_concat,List.mem_append,List.mem_singleton,ih]
    constructor
    · rintro (⟨before,after,rfl,hr⟩ | rfl)
      · exact ⟨before,after ++ [(now,call)],by simp,hr⟩
      · exact ⟨calls,[],by simp,rfl⟩
    · rintro ⟨before,after,he,hr⟩
      cases after using List.reverseRecOn with
      | nil =>
        obtain ⟨rfl,hc⟩ := List.append_inj' he rfl
        obtain ⟨rfl,rfl⟩ := Prod.mk.inj (List.cons.inj hc).1
        exact .inr (by rw [← hr])
      | append_singleton after c' =>
        have hh : calls ++ [(now,call)] = (before ++ (d.now,d.call) :: after) ++ [c'] := by
          simpa using he
        exact .inl ⟨before,after,(List.append_inj' hh rfl).1,hr⟩

theorem accepts_of_ok {maps : StorageMap V} {now : ℤ} {call : Call V} {path : String}
    (h : (perform maps now call).1 = .ok path) :
    Accepts maps call ∧ path = atTimestamp call.name (stamp now call) := by
  rcases perform_cases maps now call with ⟨ha,hr,-⟩ | ⟨-,⟨e,he⟩,-⟩
  · rw [h] at hr
    exact ⟨ha,Except.ok.inj hr⟩
  · rw [h] at he
    cases he

/-- The key paths returned are distinct, the timestamps in those of one key increase with the
calls, and a successful call leaves a larger timestamp with its entry than there has been. -/
structure VersionsOrdered (calls : List (ℤ × Call V)) : Prop where
  distinct : (run calls).2.Pairwise fun d d' => ∀ path, d.result = .ok path → d'.result ≠ .ok path
  stamps : (run calls).2.Pairwise fun d d' => d.call.userId = d'.call.userId →
    d.call.keyName = d'.call.keyName → ∀ path path', d.result = .ok path → d'.result = .ok path' →
      ∃ t t', getTimestamp path = some t ∧ getTimestamp path' = some t' ∧ t < t'
  pointers : ∀ before between now call, before ++ between ++ [(now,call)] <+: calls →
    ∀ path, (perform (run (before ++ between)).1 now call).1 = .ok path →
      ∀ t, held (run before).1 call = some t → ∃ t',
        held (run (before ++ between ++ [(now,call)])).1 call = some t' ∧ t < t'

/-- No call deletes a key that has a value at that time. -/
def NoLiveDelete (calls : List (ℤ × Call V)) : Prop :=
  ∀ before now u k, before ++ [(now,.delete u k)] <+: calls → value (run before).1 u k = none

theorem NoLiveDelete.of_prefix {calls done : List (ℤ × Call V)} (h : NoLiveDelete calls)
    (hp : done <+: calls) : NoLiveDelete done := fun before now u k hb =>
  h before now u k (hb.trans hp)

theorem NoLiveDelete.stamp {calls before : List (ℤ × Call V)} {now : ℤ} {call : Call V}
    (h : NoLiveDelete calls) (hp : before ++ [(now,call)] <+: calls)
    (ha : Accepts (run before).1 call) : stamp now call = now := by
  cases call with
  | create u k v => rfl
  | update u k v => rfl
  | delete u k => exact absurd (h before now u k hp) ha

theorem NoLiveDelete.result {calls : List (ℤ × Call V)} (h : NoLiveDelete calls) {d : Done V}
    (hd : d ∈ (run calls).2) {path : String} (hr : d.result = .ok path) :
    path = atTimestamp d.call.name d.now := by
  obtain ⟨before,after,he,hres⟩ := mem_run_iff.mp hd
  obtain ⟨ha,hpath⟩ := accepts_of_ok (hres.symm.trans hr)
  rw [hpath,h.stamp ⟨after,by simp [he]⟩ ha]

theorem NoLiveDelete.pointer {calls : List (ℤ × Call V)} (h : NoLiveDelete calls) {x : String}
    {t : ℤ} (ht : (run calls).1.keyNameToTimestamp x = some t) : ∃ c ∈ calls, c.1 = t := by
  induction calls using List.reverseRecOn with
  | nil => cases ht
  | append_singleton calls c ih =>
    obtain ⟨now,call⟩ := c
    have ih := ih (h.of_prefix ⟨_,rfl⟩)
    rw [run_concat] at ht
    rcases perform_cases (run calls).1 now call with ⟨ha,-,hp,-⟩ | ⟨-,-,hm⟩
    · rw [hp] at ht
      by_cases hx : x = call.name
      · subst hx
        rw [Function.update_self,h.stamp List.prefix_rfl ha] at ht
        exact ⟨(now,call),by simp,Option.some.inj ht⟩
      · rw [Function.update_of_ne hx] at ht
        obtain ⟨c,hc,hct⟩ := ih ht
        exact ⟨c,by simp [hc],hct⟩
    · rw [hm] at ht
      obtain ⟨c,hc,hct⟩ := ih ht
      exact ⟨c,by simp [hc],hct⟩

theorem map_run (calls : List (ℤ × Call V)) :
    (run calls).2.map (fun d => (d.now,d.call)) = calls := by
  induction calls using List.reverseRecOn with
  | nil => rfl
  | append_singleton calls c ih => rw [run_concat,List.map_append,ih]; rfl

theorem Ticking.log {calls : List (ℤ × Call V)} (h : Ticking calls) :
    (run calls).2.Pairwise fun d d' => d.now < d'.now := by
  have hh := h.increasing
  rwa [← map_run calls,List.pairwise_map] at hh

/-- What is stored was written at a time read off the clock. -/
theorem written_at {calls : List (ℤ × Call V)} {x : String} {t : ℤ}
    (h : (run calls).1.keyPathToValue (atTimestamp x t) ≠ none) : ∃ c ∈ calls, c.1 = t := by
  induction calls using List.reverseRecOn with
  | nil => exact absurd rfl h
  | append_singleton calls c ih =>
    obtain ⟨now,call⟩ := c
    rw [run_concat] at h
    have hold (hh : (run calls).1.keyPathToValue (atTimestamp x t) ≠ none) :
        ∃ c ∈ calls ++ [(now,call)], c.1 = t := by
      obtain ⟨c,hc,hct⟩ := ih hh
      exact ⟨c,by simp [hc],hct⟩
    rcases perform_cases (run calls).1 now call with ⟨-,-,-,hv⟩ | ⟨-,-,hm⟩
    · rw [hv] at h
      cases hval : call.value? with
      | none =>
        rw [hval] at h
        exact hold h
      | some v =>
        rw [hval,stamp_of_value hval,Option.elim_some] at h
        by_cases hp : atTimestamp x t = atTimestamp call.name now
        · exact ⟨(now,call),by simp,(atTimestamp_inj.mp hp).2.symm⟩
        · rw [Function.update_of_ne hp] at h
          exact hold h
    · rw [hm] at h
      exact hold h

theorem stamp_delete_lt {now t : ℤ} (hhi : now < 2 ^ 63) (ht : epoch ≤ t) :
    now / 1000000000 < t := by
  simp only [epoch] at ht
  omega

/-- Versions are ordered by their timestamps exactly as long as no live key is deleted: a
deletion is stamped in seconds. -/
theorem versionsOrdered_iff (calls : List (ℤ × Call V)) (h : Ticking calls) :
    VersionsOrdered calls ↔ NoLiveDelete calls := by
  constructor
  · intro ho before now u k hp
    by_contra hv
    obtain ⟨t,ht,hvt⟩ : ∃ t, (run before).1.keyNameToTimestamp (userIdKeyName u k) = some t ∧
        (run before).1.keyPathToValue (atTimestamp (userIdKeyName u k) t) ≠ none := by
      rw [value_eq] at hv
      cases ht : (run before).1.keyNameToTimestamp (userIdKeyName u k) with
      | none => simp [ht] at hv
      | some t => exact ⟨t,rfl,by simpa [ht] using hv⟩
    obtain ⟨c,hc,rfl⟩ := written_at hvt
    obtain ⟨after,rfl⟩ := hp
    have hlo := (h.range c (by simp [hc])).1
    have hhi := (h.range (now,.delete u k) (by simp)).2
    rcases perform_cases (run before).1 now (.delete u k) with ⟨-,hr,hpt,-⟩ | ⟨ha,-⟩
    · obtain ⟨t',ht',hlt⟩ := ho.pointers before [] now (.delete u k) (by simp) _
        (by simpa using hr) c.1 ht
      rw [List.append_nil,run_concat,held,hpt,Function.update_self] at ht'
      obtain rfl := Option.some.inj ht'
      have hs := stamp_delete_lt hhi hlo
      simp only [stamp] at hlt
      omega
    · exact ha hv
  · intro hn
    refine ⟨?distinct,?stamps,?pointers⟩
    case distinct =>
      refine h.log.imp_of_mem fun {d d'} hd hd' hlt path hr hr' => ?_
      have he := (hn.result hd hr).symm.trans (hn.result hd' hr')
      have ht := (atTimestamp_inj.mp he).2
      omega
    case stamps =>
      refine h.log.imp_of_mem fun {d d'} hd hd' hlt _ _ path path' hr hr' => ?_
      have hrange (e : Done V) (he : e ∈ (run calls).2) : -2 ^ 63 ≤ e.now ∧ e.now < 2 ^ 63 := by
        have hh := h.range _ (now_of_mem_run he)
        simp only [epoch] at hh
        omega
      rw [hn.result hd hr,hn.result hd' hr']
      exact ⟨d.now,d'.now,getTimestamp_atTimestamp _ (hrange d hd).1 (hrange d hd).2,
        getTimestamp_atTimestamp _ (hrange d' hd').1 (hrange d' hd').2,hlt⟩
    case pointers =>
      intro before between now call hp path hr t ht
      have ha := (accepts_of_ok hr).1
      obtain ⟨c,hc,rfl⟩ := (hn.of_prefix ((List.prefix_append _ _).trans
        ((List.prefix_append _ _).trans hp))).pointer ht
      refine ⟨now,?_,?_⟩
      · rcases perform_cases (run (before ++ between)).1 now call with ⟨-,-,hpt,-⟩ | ⟨hna,-⟩
        · rw [run_concat,held,hpt,Function.update_self,hn.stamp hp ha]
        · exact absurd ha hna
      · obtain ⟨after,rfl⟩ := hp
        have hlt := (List.pairwise_append.mp (List.pairwise_append.mp h.increasing).1).2.2
        exact hlt c (by simp [hc]) (now,call) (by simp)

theorem versionsOrdered_sample : VersionsOrdered (sampleCalls.take 2) :=
  (versionsOrdered_iff (sampleCalls.take 2)
    ⟨by simp [sampleCalls,epoch],by simp [sampleCalls]⟩).mpr fun before now u k ⟨after,he⟩ => by
      rcases before with _ | ⟨c,_ | ⟨c',before⟩⟩ <;> simp [sampleCalls] at he

/-- The deletion among the sample calls steps back from nanoseconds to seconds. -/
theorem sampleCalls_disordered : Clocked sampleCalls ∧
    (run sampleCalls).2.map (·.result) =
      [.ok "alice::a:b@1700000000000000000",.ok "alice::a:b@1700000000000000001",
        .ok "alice::a:b@1700000000",.ok "alice::a:b@1700000000000000003"] ∧
    ¬ VersionsOrdered sampleCalls := by
  refine ⟨sampleCalls_clocked,rfl,fun ho => ?_⟩
  obtain ⟨t',ht',hlt⟩ := ho.pointers (sampleCalls.take 2) [] 1700000000000000002
    (.delete "alice" "a:b") ⟨sampleCalls.drop 3,rfl⟩ "alice::a:b@1700000000" rfl
    1700000000000000001 rfl
  have hh : some 1700000000 = some t' := ht'
  obtain rfl := Option.some.inj hh
  exact absurd hlt (by decide)

/-- At every moment every key path that a `create` or an `update` has returned reads as the
value of that very call. -/
def HistoryKept (calls : List (ℤ × Call V)) : Prop :=
  ∀ done, done <+: calls → ∀ paths : List String,
    (∀ path ∈ paths, ∃ d ∈ (run done).2, d.result = .ok path ∧ d.call.value? ≠ none) →
    ∃ entries, readFromKeyPaths (run done).1 paths = .ok entries ∧ ∀ path ∈ paths,
      ∀ d ∈ (run done).2, d.result = .ok path → ∀ v, d.call.value? = some v →
        entries.lookup path = some v

/-- No two writes to one entry that are both accepted and bring different values fall on the
same reading of the clock. -/
def ClashFree (calls : List (ℤ × Call V)) : Prop :=
  ∀ before now call between call', before ++ (now,call) :: between ++ [(now,call')] <+: calls →
    call.name = call'.name → Accepts (run before).1 call →
    Accepts (run (before ++ (now,call) :: between)).1 call' →
    ∀ v v', call.value? = some v → call'.value? = some v' → v = v'

/-- Every key path returned for a value holds it. -/
def Holds (calls : List (ℤ × Call V)) : Prop :=
  ∀ d ∈ (run calls).2, ∀ path v, d.result = .ok path → d.call.value? = some v →
    (run calls).1.keyPathToValue path = some v

theorem ClashFree.of_prefix {calls done : List (ℤ × Call V)} (h : ClashFree calls)
    (hp : done <+: calls) : ClashFree done := fun before now call between call' hb =>
  h before now call between call' (hb.trans hp)

theorem ClashFree.holds {calls : List (ℤ × Call V)} (h : ClashFree calls) : Holds calls := by
  induction calls using List.reverseRecOn with
  | nil => intro d hd; simp [run] at hd
  | append_singleton calls c ih =>
    obtain ⟨now',call'⟩ := c
    have ih := ih (h.of_prefix ⟨_,rfl⟩)
    intro d hd path v hr hv
    rw [run_concat,List.mem_append,List.mem_singleton] at hd
    rw [run_concat]
    rcases perform_cases (run calls).1 now' call' with ⟨ha',hr',-,hval⟩ | ⟨-,⟨e,he⟩,hm⟩
    · rw [hval]
      rcases hd with hd | rfl
      · have hold := ih d hd path v hr hv
        cases hv' : call'.value? with
        | none => exact hold
        | some v' =>
          rw [stamp_of_value hv',Option.elim_some]
          obtain ⟨before,between,rfl,hres⟩ := mem_run_iff.mp hd
          obtain ⟨ha,rfl⟩ := accepts_of_ok (hres.symm.trans hr)
          rw [stamp_of_value hv] at hold ⊢
          by_cases hp : atTimestamp d.call.name d.now = atTimestamp call'.name now'
          · obtain ⟨hname,hnow⟩ := atTimestamp_inj.mp hp
            subst hnow
            rw [hp,Function.update_self,
              h before d.now d.call between call' List.prefix_rfl hname ha ha' v v' hv hv']
          · rwa [Function.update_of_ne hp]
      · have hpath := Except.ok.inj (hr'.symm.trans hr)
        rw [← hpath]
        simp only at hv
        rw [hv,Option.elim_some,Function.update_self]
    · rw [hm]
      rcases hd with hd | rfl
      · exact ih d hd path v hr hv
      · rw [he] at hr
        cases hr

theorem historyKept_iff_holds {calls : List (ℤ × Call V)} :
    HistoryKept calls ↔ ∀ done, done <+: calls → Holds done := by
  refine forall₂_congr fun done _ => ⟨fun h d hd path v hr hv => ?_,fun h paths hp => ?_⟩
  · obtain ⟨entries,he,hl⟩ := h [path] fun p hp => by
      obtain rfl := List.mem_singleton.mp hp
      exact ⟨d,hd,hr,by simp [hv]⟩
    have hlook := hl path (by simp) d hd hr v hv
    by_cases hn : (run done).1.keyPathToValue path = none
    · obtain ⟨e,he'⟩ := (readFromKeyPaths_cases (run done).1 [path]).2 ⟨path,by simp,hn⟩
      rw [he] at he'
      cases he'
    · obtain ⟨entries',he',hl'⟩ := (readFromKeyPaths_cases (run done).1 [path]).1 (by simpa using hn)
      rw [he] at he'
      obtain rfl := Except.ok.inj he'
      exact ((hl' path v).mp hlook).2
  · obtain ⟨entries,he,hl⟩ := (readFromKeyPaths_cases (run done).1 paths).1 fun path hpath => by
      obtain ⟨d,hd,hr,hv⟩ := hp path hpath
      obtain ⟨v,hv⟩ := Option.ne_none_iff_exists'.mp hv
      simp [h d hd path v hr hv]
    exact ⟨entries,he,fun path hpath d hd hr v hv =>
      (hl path v).mpr ⟨hpath,h d hd path v hr hv⟩⟩

/-- Whatever the clock does, the versions are immutable exactly as long as no two accepted
writes of different values meet in the same entry at the same reading. -/
theorem historyKept_iff (calls : List (ℤ × Call V)) : HistoryKept calls ↔ ClashFree calls := by
  rw [historyKept_iff_holds]
  constructor
  · intro h before now call between call' hp hname ha ha' v v' hv hv'
    have hres : (perform (run before).1 now call).1 = .ok (atTimestamp call.name now) := by
      rcases perform_cases (run before).1 now call with ⟨-,hr,-⟩ | ⟨hna,-⟩
      · rw [hr,stamp_of_value hv]
      · exact absurd ha hna
    have hold := h _ hp ⟨now,call,.ok (atTimestamp call.name now)⟩
      (mem_run_iff.mpr ⟨before,between ++ [(now,call')],by simp,hres.symm⟩) _ v rfl hv
    rcases perform_cases (run (before ++ (now,call) :: between)).1 now call' with
      ⟨-,-,-,hval⟩ | ⟨hna,-⟩
    · rw [run_concat,hval,hv',Option.elim_some,stamp_of_value hv',hname,Function.update_self] at hold
      exact (Option.some.inj hold).symm
    · exact absurd ha' hna
  · exact fun h done hp => (h.of_prefix hp).holds

def hastyCalls : List (ℤ × Call ℕ) :=
  [(1700000000000000000,.update "alice" "a" 1),(1700000000000000000,.update "alice" "a" 2)]

/-- The second of them replaces the version of the first. -/
theorem hastyCalls_overwrite : hastyCalls.Pairwise (fun c c' => c.1 ≤ c'.1) ∧
    (run hastyCalls).2.map (·.result) =
      [.ok "alice::a@1700000000000000000",.ok "alice::a@1700000000000000000"] ∧
    (run hastyCalls).1.keyPathToValue "alice::a@1700000000000000000" = some 2 ∧
    ¬ HistoryKept hastyCalls := by
  refine ⟨by simp [hastyCalls],rfl,rfl,fun h => ?_⟩
  have hh := historyKept_iff_holds.mp h hastyCalls List.prefix_rfl
    ⟨1700000000000000000,.update "alice" "a" 1,.ok "alice::a@1700000000000000000"⟩
    (List.mem_cons_self ..) _ 1 rfl rfl
  have hv : some 2 = some 1 := hh
  cases hv

end BasicStorage
end CoLinkServer
