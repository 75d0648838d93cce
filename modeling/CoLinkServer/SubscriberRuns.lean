import CoLinkServer.SubscriberTraces

/-! What holds of a subscriber in every run: the address of its account stays what it was, its queue
stays while its owner does not unsubscribe it, the key is counted all the time, and nobody changes the
key while the subscriber has the lock. -/
namespace CoLinkServer
namespace Subscription

open Interleaving BasicStorage

namespace ChangeOrder

variable {M : Type} {F : Formats} {O : Outside M} {clock : ℕ → ℤ}

/-- The changes of a run with their readings of the clock, the oldest first. -/
def calls (clock : ℕ → ℤ) : History → List (ℤ × Call Bytes)
  | [] => []
  | .op _ _ (.change call) _ :: past => calls clock past ++ [(clock (readings past),call)]
  | _ :: past => calls clock past

def stored (clock : ℕ → ℤ) (h : History) : StorageMap Bytes := (run (calls clock h)).1

theorem stored_change (t : ℕ) (q : Request) (call : Call Bytes) (r : Except String String) (past : History) :
    stored clock (.op t q (.change call) r :: past) =
      (BasicStorage.perform (stored clock past) (clock (readings past)) call).2 := by
  rw [stored,calls,run_concat]
  rfl

theorem stored_other {t : ℕ} {q : Request} {o : Op} {r : Res o} (ho : ∀ call, o ≠ .change call)
    (past : History) : stored clock (.op t q o r :: past) = stored clock past := by
  cases o with
  | change call => exact absurd rfl (ho call)
  | _ => rfl

section Runs

variable {c : Config Op Res Failure Request String (Shared (Inner M))} {t t' : ℕ} {q q' : Request}
  {past : History} {u k mqUri queueName name : String} {start : ℤ}

theorem now_eq (hc : Reach F O clock c) :
    c.state.shared.backend.clock 0 = clock (readings c.state.history) := by
  rw [clock_eq hc]
  simp

theorem maps_eq (hc : Reach F O clock c) :
    c.state.shared.backend.maps = stored clock c.state.history := by
  induction hc with
  | init hx =>
    obtain ⟨m,rfl⟩ := hx
    rfl
  | @step c c' a hc s ih =>
    cases s with
    | start fresh begins =>
      obtain rfl := (show _ = c.state.shared from begins)
      exact ih
    | env moves =>
      obtain ⟨m,rfl⟩ := moves
      exact ih
    | @op t q o k r x runs does =>
      obtain rfl := (Prod.mk.inj does.2).2
      rw [State.push_shared,State.push_history]
      by_cases hchange : ∃ call, o = .change call
      · obtain ⟨call,rfl⟩ := hchange
        rw [stored_change,← ih,← now_eq hc]
        rfl
      · rw [stored_other fun call he => hchange ⟨call,he⟩,← ih]
        exact (answer_inner (fun call he => hchange ⟨call,he⟩) c.state.shared).1

theorem result_of_change (hc : Reach F O clock c) {call : Call Bytes} {r : Except String String}
    (hs : .op t q (.change call) r :: past <:+ c.state.history) :
    r = (BasicStorage.perform (stored clock past) (clock (readings past)) call).1 := by
  obtain ⟨c₀,c₁,hc₀,-,rfl,-,he⟩ := exec_before hc hs
  rw [← maps_eq hc₀,← now_eq hc₀]
  exact (Prod.mk.inj he).1

def Untouched (u : String) (h : History) : Prop := ∀ t q changeType call value, .start t q ∈ h →
  asks q = some (changeType,call,value) → call.name ≠ userIdKeyName u mqUriKey

theorem deed_op (hc : Reach F O clock c) {o : Op} {r : Res o} (hs : .op t q o r :: past <:+ c.state.history) :
    Deed q (⟨o,r⟩ :: events t past) :=
  hc.traced_op (deed_handle F) hs

/-- What is stored of the account is there to stay. -/
theorem account_kept (hc : Reach F O clock c) (hu : Untouched u c.state.history) {later : History}
    (hs : later ++ past <:+ c.state.history) {payload : Bytes}
    (hv : value (stored clock past) u mqUriKey = some payload) :
    value (stored clock (later ++ past)) u mqUriKey = some payload := by
  induction later with
  | nil => exact hv
  | cons a later ih =>
    have ih := ih ((List.suffix_cons ..).trans hs)
    cases a with
    | start t q => exact ih
    | env => exact ih
    | op t q o r =>
      by_cases hchange : ∃ call, o = .change call
      · obtain ⟨call,rfl⟩ := hchange
        rw [List.cons_append,stored_change]
        by_cases hname : userIdKeyName u mqUriKey = call.name
        · rcases deed_op hc hs with ⟨changeType,value,hq,-⟩ | ⟨mqUri,rfl⟩
          · exact absurd hname.symm (hu t q changeType call value
              (hc.start_of_op (hs.subset (List.mem_cons_self ..))) hq)
          · rcases perform_cases (stored clock (later ++ past)) (clock (readings (later ++ past)))
              (.create q.userId mqUriKey (stringBytes mqUri)) with ⟨haccepts,-⟩ | ⟨-,-,hmaps⟩
            · have hnone : value (stored clock (later ++ past)) q.userId mqUriKey = none := haccepts
              rw [value_eq,show userIdKeyName q.userId mqUriKey = userIdKeyName u mqUriKey from hname.symm,
                ← value_eq,ih] at hnone
              cases hnone
            · rw [hmaps]
              exact ih
        · rw [value_perform_of_name_ne _ _ hname]
          exact ih
      · rw [List.cons_append,stored_other fun call he => hchange ⟨call,he⟩]
        exact ih

theorem stringOfBytes_stringBytes (s : String) : stringOfBytes (stringBytes s) = some s := by
  have hvalid : s.toUTF8.IsValidUTF8 := s.isValidUTF8
  simp only [stringOfBytes,stringBytes,String.fromUTF8?]
  exact dif_pos hvalid

theorem account_stored (hc : Reach F O clock c) (hu : Untouched u c.state.history)
    (hpast : past <:+ c.state.history) (ha : Account u mqUri (events t past)) :
    ∃ payload, value (stored clock c.state.history) u mqUriKey = some payload ∧
      stringOfBytes payload = some mqUri := by
  have hstored {before : History} (hs : before <:+ c.state.history) {payload : Bytes}
      (hv : value (stored clock before) u mqUriKey = some payload) :
      value (stored clock c.state.history) u mqUriKey = some payload := by
    obtain ⟨later,hh⟩ := hs
    have hkept : value (stored clock (later ++ before)) u mqUriKey = some payload :=
      account_kept hc hu (by rw [hh]) hv
    rwa [hh] at hkept
  rcases ha with ⟨entries,path,payload,hm,hhead,hstring⟩ | ⟨path,hm⟩
  · obtain ⟨q,hm⟩ := mem_events.mp hm
    obtain ⟨before,hs⟩ := suffix_of_mem hm
    obtain ⟨c₀,c₁,hc₀,-,rfl,-,he⟩ := exec_before hc (hs.trans hpast)
    have hr : (.ok entries : Except String Payloads) = (BasicStorage.readFromKeyNames
        c₀.state.shared.backend.maps u [mqUriKey]).map (O.entryOrder c₀.state.shared.backend.outside) :=
      (Prod.mk.inj he).1
    refine ⟨payload,hstored ((List.suffix_cons ..).trans (hs.trans hpast)) ?_,hstring⟩
    rw [← maps_eq hc₀]
    rcases readFromKeyNames_single c₀.state.shared.backend.maps u mqUriKey with
      ⟨v,path',hv,hread⟩ | ⟨-,e,hread⟩
    · rw [hread] at hr
      obtain ⟨entry,hentry,hpayload⟩ := head_of_single (O := O) c₀.state.shared.backend.outside path' v
      rw [Except.ok.inj hr,hentry] at hhead
      obtain rfl := Option.some.inj hhead
      rw [hv,← hpayload]
    · rw [hread] at hr
      cases hr
  · obtain ⟨q,hm⟩ := mem_events.mp hm
    obtain ⟨before,hs⟩ := suffix_of_mem hm
    refine ⟨stringBytes mqUri,hstored (hs.trans hpast) ?_,stringOfBytes_stringBytes mqUri⟩
    have hr := result_of_change hc (hs.trans hpast)
    rw [stored_change]
    rcases perform_cases (stored clock before) (clock (readings before))
      (.create u mqUriKey (stringBytes mqUri)) with ⟨-,-,htime,hvalues⟩ | ⟨-,⟨e,herror⟩,-⟩
    · rw [value_eq,htime,show userIdKeyName u mqUriKey =
        (Call.create u mqUriKey (stringBytes mqUri)).name from rfl,Function.update_self,Option.bind_some,
        hvalues]
      simp [Call.value?]
    · rw [herror] at hr
      cases hr

theorem account_unique (hc : Reach F O clock c) (hu : Untouched u c.state.history)
    (ha : Account u mqUri (events t c.state.history)) {mqUri' : String}
    (ha' : Account u mqUri' (events t' c.state.history)) : mqUri = mqUri' := by
  obtain ⟨payload,hv,hstring⟩ := account_stored hc hu List.suffix_rfl ha
  obtain ⟨payload',hv',hstring'⟩ := account_stored hc hu List.suffix_rfl ha'
  rw [hv] at hv'
  obtain rfl := Option.some.inj hv'
  exact Option.some.inj (hstring.symm.trans hstring')

theorem reach_any (hc : Reach F O clock c) : Subscription.Reach F (basic O) c := by
  induction hc with
  | init hx =>
    obtain ⟨m,rfl⟩ := hx
    exact .init ⟨_,rfl⟩
  | step hc s ih =>
    cases s with
    | start fresh begins => exact ih.step (.start fresh begins)
    | op runs does => exact ih.step (.op runs does)
    | env moves =>
      obtain ⟨m,rfl⟩ := moves
      exact ih.step (.env ⟨_,rfl⟩)

theorem named_once {h : History} (hf : Everywhere FreshQueue h) {mqUri' name' : String}
    (hm : .op t q (.createQueue mqUri name) (.ok queueName) ∈ h)
    (hm' : .op t' q' (.createQueue mqUri' name') (.ok queueName) ∈ h) :
    t = t' ∧ q = q' ∧ mqUri = mqUri' := by
  rcases before_or_after hm hm' with he | ⟨past,hs,hp⟩ | ⟨past,hs,hp⟩
  · cases he
    exact ⟨rfl,rfl,rfl⟩
  · exact absurd hp (everywhere_iff.mp hf _ _ hs t' q' mqUri' name')
  · exact absurd hp (everywhere_iff.mp hf _ _ hs t q mqUri name)

/-- A queue of the run: who has created it, and under which key it is entered. -/
structure Opens (t : ℕ) (u k : String) (start : ℤ) (mqUri queueName : String) (h : History) : Prop where
  created : .op t (.subscribe u k start) (.createQueue mqUri "") (.ok queueName) ∈ h
  fresh : Everywhere FreshQueue h
  user : NoColon u
  kept : ∀ t, .start t (.unsubscribe u queueName) ∉ h

theorem entered_by_opener (hc : Reach F O clock c)
    (ho : Opens t u k start mqUri queueName c.state.history)
    (hm : .op t' q (.insertQueue queueName name) () ∈ c.state.history) : name = userIdKeyName u k := by
  obtain ⟨past,hs⟩ := suffix_of_mem hm
  obtain ⟨u',k',start',mqUri',rfl,rfl,hcreated⟩ := deed_op hc hs
  obtain ⟨q',hcreated⟩ := mem_events.mp hcreated
  have hpast := (List.suffix_cons ..).trans hs
  obtain ⟨rfl,rfl,-⟩ := named_once ho.fresh ho.created (hpast.subset hcreated)
  obtain ⟨rfl,rfl,-⟩ := Request.subscribe.inj (hc.same_request ho.created hm)
  rfl

theorem removed_of_opener (hc : Reach F O clock c)
    (ho : Opens t u k start mqUri queueName c.state.history)
    (hm : .op t' q (.removeQueue queueName) (some name) ∈ c.state.history) : name = userIdKeyName u k := by
  obtain ⟨past,hs⟩ := suffix_of_mem hm
  obtain ⟨c₀,c₁,hc₀,-,rfl,-,he⟩ := exec_before hc hs
  have hpast := (List.suffix_cons ..).trans hs
  have hentry : c₀.state.shared.queueNameToUserIdKeyName queueName = some name :=
    (Prod.mk.inj he).1.symm
  obtain ⟨t'',q'',hentered⟩ := (reach_counted F (reach_any hc₀) (ho.fresh.suffix hpast)).entered _ _ hentry
  exact entered_by_opener hc ho (hpast.subset hentered)

theorem queue_kept (hc : Reach F O clock c) (ho : Opens t u k start mqUri queueName c.state.history)
    {mqUri' : String} {r : Except String Unit} :
    .op t' q (.deleteQueue mqUri' queueName) r ∉ c.state.history := fun hm => by
  obtain ⟨past,hs⟩ := suffix_of_mem hm
  obtain ⟨name,rfl,hremoved⟩ := deed_op hc hs
  obtain ⟨q',hremoved⟩ := mem_events.mp hremoved
  have hpast := (List.suffix_cons ..).trans hs
  obtain rfl := removed_of_opener hc ho (hpast.subset hremoved)
  refine ho.kept t' ?_
  have hstart := hc.start_of_op hm
  rwa [getUserId_userIdKeyName ho.user] at hstart

/-- What has been entered is there until it is removed. -/
theorem entry_or_removed {σ : Type} {B : Backend σ} {c : Config Op Res Failure Request String (Shared σ)}
    (hc : Subscription.Reach F B c) (hm : .op t q (.insertQueue queueName name) () ∈ c.state.history) :
    ∃ name', c.state.shared.queueNameToUserIdKeyName queueName = some name' ∨
      ∃ t' q', .op t' q' (.removeQueue queueName) (some name') ∈ c.state.history := by
  induction hc with
  | init hx => cases hm
  | @step c c' a hc s ih =>
    have hold (hm : .op t q (.insertQueue queueName name) () ∈ c.state.history)
        (hkept : c'.state.shared.queueNameToUserIdKeyName queueName =
          c.state.shared.queueNameToUserIdKeyName queueName) :
        ∃ name', c'.state.shared.queueNameToUserIdKeyName queueName = some name' ∨
          ∃ t' q', .op t' q' (.removeQueue queueName) (some name') ∈ c'.state.history := by
      obtain ⟨name',hin | ⟨t',q',hout⟩⟩ := ih hm
      · exact ⟨name',.inl (hkept.trans hin)⟩
      · exact ⟨name',.inr ⟨t',q',by rw [s.history]; exact List.mem_cons_of_mem _ hout⟩⟩
    have hcons : .op t q (.insertQueue queueName name) () ∈ a :: c.state.history := s.history ▸ hm
    cases s with
    | start fresh begins =>
      obtain rfl := (show _ = c.state.shared from begins)
      exact hold ((List.mem_cons.mp hcons).resolve_left fun he => by cases he) rfl
    | env moves =>
      obtain ⟨backend,rfl⟩ := moves
      exact hold ((List.mem_cons.mp hcons).resolve_left fun he => by cases he) rfl
    | @op t₁ q₁ o k r x runs does =>
      obtain ⟨rfl,rfl⟩ := Prod.mk.inj does.2
      have hbefore (ho : ∀ name', o ≠ .insertQueue queueName name') :
          .op t q (.insertQueue queueName name) () ∈ c.state.history :=
        (List.mem_cons.mp hcons).resolve_left fun he => by
          cases he
          exact ho name rfl
      cases ho : o.marks with
      | false =>
        refine hold (hbefore fun name' he => ?_) ?_
        · rw [he] at ho
          cases ho
        · exact congrFun (maps_of_unmarked B ho c.state.shared).2 queueName
      | true =>
        cases o with
        | insertQueue queueName' name' =>
          by_cases hq : queueName' = queueName
          · subst hq
            exact ⟨name',.inl (by simp [Shared.setQueue])⟩
          · exact hold (hbefore fun _ he => hq (Op.insertQueue.inj he).1)
              (by simp [Shared.setQueue,Ne.symm hq])
        | removeQueue queueName' =>
          have hm := hbefore fun _ he => by cases he
          by_cases hq : queueName' = queueName
          · subst hq
            obtain ⟨name',hin | ⟨t',q',hout⟩⟩ := ih hm
            · refine ⟨name',.inr ⟨t₁,q₁,?_⟩⟩
              rw [State.push_history,List.mem_cons]
              exact .inl (by rw [← hin])
            · exact ⟨name',.inr ⟨t',q',List.mem_cons_of_mem _ hout⟩⟩
          · exact hold hm (by simp [Shared.setQueue,Ne.symm hq])
        | discountSubscription name' =>
          refine hold (hbefore fun _ he => by cases he) ?_
          cases hcount : c.state.shared.keySubscriptionCount name' <;> simp [hcount,Shared.setCount]
        | _ => exact hold (hbefore fun _ he => by cases he) rfl

/-- As long as its queue is kept the subscriber is counted. -/
theorem subscribed (hc : Reach F O clock c) (ho : Opens t u k start mqUri queueName c.state.history)
    (hm : .op t' q (.insertQueue queueName name) () ∈ c.state.history) :
    (c.state.shared.keySubscriptionCount (userIdKeyName u k)).isSome := by
  have hcounted := reach_counted F (reach_any hc) ho.fresh
  have hm' := hcounted.mapped (userIdKeyName u k)
  have hn := hcounted.counted (userIdKeyName u k)
  have hsub := covered F (reach_any hc) (.subscription (userIdKeyName u k))
  have hrem := covered F (reach_any hc) (.removal (userIdKeyName u k))
  have hlt : total (ledger.spends (.removal (userIdKeyName u k))) c.state.history <
      total (ledger.earns (.subscription (userIdKeyName u k))) c.state.history := by
    obtain ⟨name',hin | ⟨t'',q'',hout⟩⟩ := entry_or_removed (reach_any hc) hm
    · obtain ⟨_,_,hentered⟩ := hcounted.entered _ _ hin
      obtain rfl := entered_by_opener hc ho hentered
      have hpos : 0 < mapped c.state.shared (userIdKeyName u k) :=
        (Set.ncard_pos (hcounted.finite.queues _)).mpr ⟨queueName,hin⟩
      omega
    · obtain rfl := removed_of_opener hc ho hout
      obtain ⟨past,hs⟩ := suffix_of_mem hout
      obtain ⟨u'',rfl⟩ := deed_op hc hs
      have hspends : (events t'' c.state.history).countP
          (ledger.spends (.removal (userIdKeyName u k))) = 0 := by
        refine List.countP_eq_zero.mpr fun e he hspent => ?_
        obtain ⟨o,r⟩ := e
        cases o with
        | discountSubscription name' =>
          have hname : name' = userIdKeyName u k := by simpa [ledger] using hspent
          subst hname
          obtain ⟨q',hm⟩ := mem_events.mp he
          obtain ⟨past',hs'⟩ := suffix_of_mem hm
          obtain ⟨queueName',rfl,-⟩ := deed_op hc hs'
          obtain ⟨rfl,rfl⟩ := Request.unsubscribe.inj (hc.same_request hout hm)
          refine ho.kept t'' ?_
          have hstart := hc.start_of_op hm
          rwa [getUserId_userIdKeyName ho.user] at hstart
        | _ => cases hspent
      have hearns : 0 < (events t'' c.state.history).countP
          (ledger.earns (.removal (userIdKeyName u k))) :=
        List.countP_pos_iff.mpr ⟨_,mem_events.mpr ⟨_,hout⟩,by simp [ledger]⟩
      have hstrict : total (ledger.spends (.removal (userIdKeyName u k))) c.state.history <
          total (ledger.earns (.removal (userIdKeyName u k))) c.state.history :=
        (reach_any hc).covered_lt (t := t'') (fun q => ((marks_handle F q).weaken fun h hm => moment_covers hm).mono
          fun _ _ _ => trivial) (fun _ => true) _ (fun _ _ _ => rfl) (by omega)
      omega
  cases hv : c.state.shared.keySubscriptionCount (userIdKeyName u k) with
  | none =>
    rw [hv,Option.getD_none] at hn
    omega
  | some num => rfl

def Inside (t : ℕ) (past : History) : Prop :=
  ⟨.lockWrite,()⟩ ∈ events t past ∧ ∀ e ∈ events t past, lockAccount.spends .exclusive e = false

theorem given_back (hc : Reach F O clock c) (hpast : past <:+ c.state.history) (hin : Inside t past)
    (hread : ⟨.lockRead,()⟩ ∈ events t' past) : ⟨.unlockRead,()⟩ ∈ events t' past := by
  by_contra hn
  refine locked_apart hc hpast t' t hread (fun e he => ?_) hin.1 hin.2
  obtain ⟨o,r⟩ := e
  cases o with
  | unlockRead => exact absurd he hn
  | _ => rfl

theorem all_or_nothing (hc : Reach F O clock c) (hpast : past <:+ c.state.history) (hin : Inside t past)
    {body : Events} (hev : events t' c.state.history = ⟨.unlockRead,()⟩ :: (body ++ [⟨.lockRead,()⟩]))
    (hbody : ⟨.unlockRead,()⟩ ∉ body) :
    events t' past = [] ∨ events t' past = events t' c.state.history := by
  have hs := events_mono hpast t'
  rw [hev] at hs ⊢
  rcases List.suffix_cons_iff.mp hs with he | hs
  · exact .inr he
  · refine .inl ?_
    rcases List.suffix_concat_iff.mp hs with he | ⟨rest,he,hrest⟩
    · exact he
    · have hread : ⟨.lockRead,()⟩ ∈ events t' past := by rw [he]; simp
      have hgiven := given_back hc hpast hin hread
      rw [he,List.mem_append] at hgiven
      rcases hgiven with hm | hm
      · exact absurd (hrest.subset hm) hbody
      · cases List.mem_singleton.mp hm

/-- The key is not changed meanwhile. -/
theorem unchanged_inside (hc : Reach F O clock c) (hu : Untouched u c.state.history)
    (husers : ∀ t q, .start t q ∈ c.state.history → NoColon q.userId) (hin : Inside t past)
    (ha : Account u mqUri (events t past)) {call : Call Bytes} {path : String}
    (hs : .op t' q (.change call) (.ok path) :: past <:+ c.state.history) (hnoColon : NoColon u) :
    call.name ≠ userIdKeyName u k := by
  intro hname
  have hpast := (List.suffix_cons ..).trans hs
  rcases deed_op hc hs with ⟨changeType,value,-,hevents⟩ | ⟨mqUri',rfl⟩
  · have hread : ⟨.lockRead,()⟩ ∈ events t' past := by rw [hevents]; simp
    have hgiven := given_back hc hpast hin hread
    rw [hevents] at hgiven
    cases List.mem_singleton.mp hgiven
  · obtain ⟨rfl,rfl⟩ := (userIdKeyName_inj (husers t' q
      (hc.start_of_op (hs.subset (List.mem_cons_self ..)))) hnoColon).mp hname
    obtain ⟨c₀,hc₀,rfl,-⟩ := hc.passed hpast
    obtain ⟨payload,hv,-⟩ := account_stored hc₀ (fun t q changeType call value hm =>
      hu t q changeType call value (hpast.subset hm)) List.suffix_rfl ha
    have hr := result_of_change hc hs
    rcases perform_cases (stored clock c₀.state.history) (clock (readings c₀.state.history))
      (.create q.userId mqUriKey (stringBytes mqUri')) with ⟨haccepts,-⟩ | ⟨-,⟨e,herror⟩,-⟩
    · have hnone : value (stored clock c₀.state.history) q.userId mqUriKey = none := haccepts
      rw [hv] at hnone
      cases hnone
    · rw [herror] at hr
      cases hr

theorem of_mem_calls {now : ℤ} {call : Call Bytes} (hm : (now,call) ∈ calls clock past) :
    ∃ t q r before, .op t q (.change call) r :: before <:+ past ∧ now = clock (readings before) := by
  induction past with
  | nil => cases hm
  | cons a past ih =>
    have hold (hm : (now,call) ∈ calls clock past) : ∃ t q r before,
        .op t q (.change call) r :: before <:+ a :: past ∧ now = clock (readings before) := by
      obtain ⟨t,q,r,before,hs,hnow⟩ := ih hm
      exact ⟨t,q,r,before,hs.trans (List.suffix_cons ..),hnow⟩
    unfold calls at hm
    split at hm
    · next he => cases he
    · next t q call' r past' he =>
      cases he
      rcases List.mem_append.mp hm with hm | hm
      · exact hold hm
      · obtain ⟨rfl,rfl⟩ := Prod.mk.inj (List.mem_singleton.mp hm)
        exact ⟨t,q,r,past,List.suffix_rfl,rfl⟩
    · next he =>
      cases he
      exact hold hm

theorem mem_log (hc : Reach F O clock c) (hpast : past <:+ c.state.history) {call : Call Bytes}
    {r : Except String String} : (∃ now, (⟨now,call,r⟩ : Done Bytes) ∈ (run (calls clock past)).2) ↔
      ∃ t q, .op t q (.change call) r ∈ past := by
  induction past with
  | nil => simp [calls,run]
  | cons a past ih =>
    have ih := ih ((List.suffix_cons ..).trans hpast)
    have hother (ha : ∀ t q call r, a ≠ .op t q (.change call) r) (hlog : calls clock (a :: past) =
        calls clock past) : (∃ now, (⟨now,call,r⟩ : Done Bytes) ∈ (run (calls clock (a :: past))).2) ↔
          ∃ t q, .op t q (.change call) r ∈ a :: past := by
      rw [hlog,ih]
      exact exists_congr fun t => exists_congr fun q =>
        ⟨List.mem_cons_of_mem _,fun hm => (List.mem_cons.mp hm).resolve_left fun he => ha _ _ _ _ he.symm⟩
    cases a with
    | start t q => exact hother (fun _ _ _ _ he => by cases he) rfl
    | env => exact hother (fun _ _ _ _ he => by cases he) rfl
    | op t q o r' =>
      by_cases hchange : ∃ call', o = .change call'
      · obtain ⟨call',rfl⟩ := hchange
        rw [calls,run_concat]
        have hr : r' = _ := result_of_change hc hpast
        constructor
        · rintro ⟨now,hm⟩
          rcases List.mem_append.mp hm with hm | hm
          · obtain ⟨t',q',hm⟩ := ih.mp ⟨now,hm⟩
            exact ⟨t',q',List.mem_cons_of_mem _ hm⟩
          · obtain ⟨-,rfl,he⟩ := Done.mk.inj (List.mem_singleton.mp hm)
            exact ⟨t,q,by rw [he,hr]; exact List.mem_cons_self ..⟩
        · rintro ⟨t',q',hm⟩
          rcases List.mem_cons.mp hm with hm | hm
          · cases hm
            exact ⟨_,List.mem_append_right _ (List.mem_singleton.mpr (by rw [hr]; rfl))⟩
          · obtain ⟨now,hm⟩ := ih.mpr ⟨t',q',hm⟩
            exact ⟨now,List.mem_append_left _ hm⟩
      · refine hother (fun _ _ call' _ he => ?_) ?_
        · cases he
          exact hchange ⟨call',rfl⟩
        · cases o with
          | change call' => exact absurd ⟨call',rfl⟩ hchange
          | _ => rfl

/-- The clock of a run shows plausible times. -/
structure Timed (clock : ℕ → ℤ) (h : History) : Prop where
  increasing : StrictMono clock
  first : epoch ≤ clock 0
  last : clock (readings h) < 2 ^ 63

theorem Timed.range {h : History} (htimed : Timed clock h) {n : ℕ} (hn : n ≤ readings h) :
    epoch ≤ clock n ∧ clock n < 2 ^ 63 :=
  ⟨htimed.first.trans (htimed.increasing.monotone (Nat.zero_le n)),
    (htimed.increasing.monotone hn).trans_lt htimed.last⟩

theorem user_of_asks {changeType : String} {call : Call Bytes} {value : Bytes}
    (hq : asks q = some (changeType,call,value)) : call.userId = q.userId := by
  cases q <;> cases hq <;> rfl

theorem clocked_calls (hc : Reach F O clock c) (htimed : Timed clock c.state.history)
    (husers : ∀ t q, .start t q ∈ c.state.history → NoColon q.userId) (hpast : past <:+ c.state.history) :
    Clocked (calls clock past) := by
  refine ⟨?_,?_,?_⟩
  · rintro ⟨now,call⟩ hx
    obtain ⟨t,q,r,before,hs,-⟩ := of_mem_calls hx
    have hs := hs.trans hpast
    have huser := husers t q (hc.start_of_op (hs.subset (List.mem_cons_self ..)))
    rcases deed_op hc hs with ⟨changeType,value,hq,-⟩ | ⟨mqUri,hcall⟩
    · rwa [user_of_asks hq]
    · rw [hcall]
      exact huser
  · rintro ⟨now,call⟩ hx
    obtain ⟨t,q,r,before,hs,rfl⟩ := of_mem_calls hx
    exact htimed.range (readings_lt (hs.trans hpast)).le
  · induction past with
    | nil => exact List.Pairwise.nil
    | cons a past ih =>
      have ih := ih ((List.suffix_cons ..).trans hpast)
      unfold calls
      split
      · exact List.Pairwise.nil
      · next t q call r past' he =>
        cases he
        refine List.pairwise_append.mpr ⟨ih,List.pairwise_singleton ..,fun x hx y hy => ?_⟩
        obtain rfl := List.mem_singleton.mp hy
        obtain ⟨now,call⟩ := x
        obtain ⟨t,q,r,before,hs,rfl⟩ := of_mem_calls hx
        exact htimed.increasing (readings_lt hs)
      · next he =>
        cases he
        exact ih

def Wrote (u k path : String) (v : Bytes) (h : History) : Prop := ∃ t q call,
  .op t q (.change call) (.ok path) ∈ h ∧ call.name = userIdKeyName u k ∧ call.value? = some v

theorem returned_iff (hc : Reach F O clock c) (hu : NoColon u)
    (husers : ∀ t q, .start t q ∈ c.state.history → NoColon q.userId) (hpast : past <:+ c.state.history)
    {path : String} {v : Bytes} :
    Returned (run (calls clock past)).2 u k path v ↔ Wrote u k path v past := by
  constructor
  · rintro ⟨⟨now,call,r⟩,hm,hr,hcall⟩
    obtain rfl := (show r = .ok path from hr)
    obtain ⟨t,q,hm⟩ := (mem_log hc hpast).mp ⟨now,hm⟩
    exact ⟨t,q,call,hm,by rcases hcall with rfl | rfl <;> rfl,by rcases hcall with rfl | rfl <;> rfl⟩
  · rintro ⟨t,q,call,hm,hname,hv⟩
    obtain ⟨before,hs⟩ := suffix_of_mem hm
    have hs := hs.trans hpast
    have huser : NoColon call.userId := by
      have huser := husers t q (hc.start_of_op (hs.subset (List.mem_cons_self ..)))
      rcases deed_op hc hs with ⟨changeType,value,hq,-⟩ | ⟨mqUri,rfl⟩
      · rwa [user_of_asks hq]
      · exact huser
    obtain ⟨now,hlog⟩ := (mem_log hc hpast).mpr ⟨t,q,hm⟩
    refine ⟨_,hlog,rfl,?_⟩
    obtain ⟨huid,hkey⟩ := (userIdKeyName_inj huser hu).mp hname
    cases call with
    | create u' k' w =>
      obtain rfl : w = v := Option.some.inj hv
      obtain rfl : u' = u := huid
      obtain rfl : k' = k := hkey
      exact .inl rfl
    | update u' k' w =>
      obtain rfl : w = v := Option.some.inj hv
      obtain rfl : u' = u := huid
      obtain rfl : k' = k := hkey
      exact .inr rfl
    | delete u' k' => cases hv

def versions (clock : ℕ → ℤ) (h : History) : Content Bytes :=
  VersionedMap.replay (BasicStorage.changes (run (calls clock h)).2)

theorem stored_refines (hc : Reach F O clock c) (htimed : Timed clock c.state.history)
    (husers : ∀ t q, .start t q ∈ c.state.history → NoColon q.userId) (hpast : past <:+ c.state.history) :
    ∃ latest < 2 ^ 63, Refines latest (stored clock past) (versions clock past) :=
  have hclocked := clocked_calls hc htimed husers hpast
  run_refines hclocked hclocked.bound.1 hclocked.bound.2

theorem version_iff (hc : Reach F O clock c) (htimed : Timed clock c.state.history) (hu : NoColon u)
    (husers : ∀ t q, .start t q ∈ c.state.history → NoColon q.userId) (hpast : past <:+ c.state.history)
    {time : ℤ} {v : Bytes} :
    (versions clock past).version (u,k) time = some v ↔ Wrote u k (keyPath u k time) v past := by
  have hclocked := clocked_calls hc htimed husers hpast
  rw [← returned_iff hc hu husers hpast,← version_eq_some hclocked]
  constructor
  · exact fun hv => ⟨time,rfl,hv⟩
  · rintro ⟨time',htime,hv⟩
    obtain ⟨-,-,rfl⟩ := (keyPath_inj hu hu).mp htime
    exact hv

end Runs

end ChangeOrder
end Subscription
end CoLinkServer
