import CoLinkServer.UserInit

/-! The order in which an initialisation starts operators. A protocol waits for those it is to be
started after by looking at a stored flag, which may be left from an earlier initialisation. -/
namespace CoLinkServer

namespace UserInit

open Interleaving Authorization

/-- The protocols that are to be initialised first. -/
def startAfter (initParam : Value) : List String :=
  (((initParam.get "start_after").bind Value.asArray).getD []).filterMap Value.asStr

variable (S : Server) (patience : ℕ)

/-- The configured protocols. -/
def protocols : List (String × Value) :=
  match (readConfig S).outcome with
  | some (.ok protocols) => protocols
  | _ => []

/-- How many operators the protocol has. -/
def operators (protocolName : String) : ℕ :=
  (((protocols S).lookup protocolName).bind operatorNum).elim 0 Int.toNat

/-- An operator of the protocol is started for the user, by a task that `run` has spawned. -/
def startsOperator (run : ℕ) (userId protocolName : String) : Action Op Res Request → Bool
  | .op _ (.spawned _ (some parent) (.initProtocol u _ name _)) (.operator (.startInstance _ _ _ _))
      (.ok _) => parent = run && (u = userId && name = protocolName)
  | _ => false

/-- All operators of the protocol have been started in this run of the initialisation. -/
def AllStarted (run : ℕ) (userId protocolName : String) (h : History) : Prop :=
  operators S protocolName ≤ h.countP (startsOperator run userId protocolName)

/-- The protocol reports that it is initialised. -/
def Reports (userId protocolName : String) (a : Action Op Res Request) : Prop :=
  ∃ payload : Bytes, payloadAt userId (isInitializedKey protocolName) a = some (some payload) ∧
    payload.head? = some 1

/-- An operator is started after all operators of the protocols that come first, and after each of
these has reported since then. -/
def Ordered : Action Op Res Request → History → Prop
  | .op _ (.spawned _ (some run) (.initProtocol u _ _ param)) (.operator (.startInstance _ _ _ _)) _,
      past => ∀ first ∈ startAfter param, 0 < operators S first →
        ∃ a before, a :: before <:+ past ∧ Reports u first a ∧ AllStarted S run u first before
  | _,_ => True

/-- The flag of the protocol says that it is initialised. -/
def Flagged (x : Shared) (h : History) (userId protocolName : String) : Prop :=
  (stored x h userId (isInitializedKey protocolName)).bind List.head? = some 1

/-- The condition: the flag of a protocol does not say that it is initialised when a task looks at
it that waits for operators of the protocol that have not been started, nor when an operator of the
protocol is started. -/
def NotEarly (x : Shared) : Action Op Res Request → History → Prop
  | .op _ (.spawned _ (some run) (.initProtocol u _ name param)) (.operator o) _,past =>
    match o with
    | .storageRead _ k => ∀ first ∈ startAfter param, k = isInitializedKey first →
        ¬AllStarted S run u first past → ¬Flagged x past u first
    | .startInstance _ _ _ _ => ¬Flagged x past u name
    | _ => True
  | _,_ => True

section Traces

variable {S} {patience} {userId userJwt protocolName : String} {initParam : Value} {α : Type}

/-- What a task has done so far, newest first. -/
abbrev Past := List (Event Op Res)

/-- The task has seen the flag of the protocol at 1. -/
def Seen (userId protocolName : String) (past : Past) : Prop :=
  ∃ payload : Bytes, ⟨.operator (.storageRead userId (isInitializedKey protocolName)),
    (.ok payload : Except String Bytes)⟩ ∈ past ∧ payload.head? = some 1

/-- A task starts an operator after it has seen all flags that it has to wait for. -/
def Waited (userId : String) (initParam : Value) : Past → Prop
  | ⟨.operator (.startInstance _ _ _ _),_⟩ :: past =>
      ∀ first ∈ startAfter initParam, Seen userId first past
  | _ => True

/-- The task has seen all flags that it has to wait for. -/
def AllSeen (userId : String) (initParam : Value) (past : Past) : Prop :=
  ∀ first ∈ startAfter initParam, Seen userId first past

theorem Seen.mono {past past' : Past} (h : Seen userId protocolName past) (hs : past <:+ past') :
    Seen userId protocolName past' := by
  obtain ⟨payload,hm,hp⟩ := h
  exact ⟨payload,hs.subset hm,hp⟩

theorem AllSeen.waited {past : Past} (h : AllSeen userId initParam past) (e : Event Op Res) :
    Waited userId initParam (e :: past) ∧ AllSeen userId initParam (e :: past) := by
  refine ⟨?_,fun first hf => (h first hf).mono (List.suffix_cons _ _)⟩
  unfold Waited
  split
  · next he =>
    obtain ⟨-,rfl⟩ := List.cons.inj he
    exact h
  · trivial

theorem traced_waitProtocolInitialization (patience : ℕ) (past : Past) :
    (waitProtocolInitialization userId protocolName patience).Traced (Waited userId initParam) past
      (Prog.OnOk fun _ past' => past <:+ past' ∧ Seen userId protocolName past') := by
  induction patience generalizing past with
  | zero => exact fun r => r.elim
  | succ patience ih =>
    have hread (r : Except String Bytes) : past <:+
        (⟨.operator (.storageRead userId (isInitializedKey protocolName)),r⟩ : Event Op Res) :: past :=
      List.suffix_cons _ _
    have hagain (r : Except String Bytes) : (perform .sleep >>= fun _ =>
        waitProtocolInitialization userId protocolName patience).Traced (Waited userId initParam)
          (⟨.operator (.storageRead userId (isInitializedKey protocolName)),r⟩ :: past)
          (Prog.OnOk fun _ past' => past <:+ past' ∧ Seen userId protocolName past') :=
      fun _ => ⟨trivial,(ih _).ok fun _ past' h =>
        ⟨((hread r).trans (List.suffix_cons _ _)).trans h.1,h.2⟩⟩
    intro r
    refine ⟨trivial,?_⟩
    rcases r with e | _ | ⟨flag,flags⟩
    · exact hagain (.error e)
    · trivial
    · show (if flag = 1 then _ else _ : Service Unit).Traced _ _ _
      split_ifs with hf
      · exact ⟨hread _,flag :: flags,List.mem_cons_self ..,congrArg some hf⟩
      · exact hagain (.ok (flag :: flags))

theorem traced_waitStartAfter : (waitStartAfter patience userId initParam).Traced
    (Waited userId initParam) [] (Prog.OnOk fun _ => AllSeen userId initParam) := by
  unfold waitStartAfter AllSeen startAfter
  cases hget : initParam.get "start_after" with
  | none => exact fun first hf => by simp at hf
  | some list =>
    rw [Option.bind_some]
    dsimp only
    cases list.asArray with
    | none => trivial
    | some list =>
      refine (Prog.Traced.foldlM (J := fun rest _ past => ∀ first ∈ list.filterMap Value.asStr,
        first ∈ rest.filterMap Value.asStr ∨ Seen userId first past)
        (fun p rest _ past hseen => ?_) fun first hf => .inl hf).ok fun _ past h first hf =>
          (h first hf).resolve_left (by simp)
      cases hp : p.asStr with
      | none => trivial
      | some name =>
        refine (traced_waitProtocolInitialization patience past).ok fun _ past' h first hf => ?_
        rcases hseen first hf with hrest | hs
        · rw [List.filterMap_cons_some hp] at hrest
          rcases List.mem_cons.mp hrest with rfl | hrest
          · exact .inr h.2
          · exact .inl hrest
        · exact .inr (hs.mono h.1)

theorem traced_initProtocol : (initProtocol S patience userId userJwt protocolName initParam).Traced
    (Waited userId initParam) [] fun _ _ => True := by
  refine Prog.Traced.bind (traced_waitStartAfter.mono fun r past h => ?_)
  cases r with
  | error e => trivial
  | ok _ => exact (Prog.Traced.of_stable (fun e past h => h.waited e) _ h).mono fun _ _ _ => trivial

/-- What holds of all tasks that initialise a protocol. -/
def Patient (q : Request) (past : Past) : Prop :=
  ∀ h p u jwt name param, q = .spawned h p (.initProtocol u jwt name param) → Waited u param past

theorem traced_serve (q : Request) : (serve S patience q).Traced (Patient q) [] fun _ _ => True := by
  have hother (hq : ∀ h p u jwt name param, q ≠ .spawned h p (.initProtocol u jwt name param)) :
      (serve S patience q).Traced (Patient q) [] fun _ _ => True :=
    Prog.Traced.of_forall (fun past h p u jwt name param he => absurd he (hq h p u jwt name param)) _ _
  cases q with
  | spawned h p task =>
    cases task with
    | initProtocol u jwt name param =>
      refine Prog.Traced.bind (Prog.Traced.attempt ((traced_initProtocol.weaken
        fun past hw h' p' u' jwt' name' param' he => ?_).mono fun r past _ _ =>
          ⟨fun _ _ _ _ _ _ _ => trivial,trivial⟩))
      cases he
      exact hw
    | userInit u jwt => exact hother fun _ _ _ _ _ _ he => by cases he
  | _ => exact hother fun _ _ _ _ _ _ he => by cases he

end Traces

section Runs

variable {S} {patience} {x : Shared} {c : Configuration} {userId protocolName : String} {run : ℕ}

theorem newest_of_countP {α : Type} {p : α → Bool} {l : List α} (h : 0 < l.countP p) :
    ∃ newer a older, l = newer ++ a :: older ∧ p a ∧ (a :: older).countP p = l.countP p := by
  induction l with
  | nil => cases h
  | cons a l ih =>
    by_cases ha : p a
    · exact ⟨[],a,l,rfl,ha,rfl⟩
    · rw [List.countP_cons_of_neg ha] at h ⊢
      obtain ⟨newer,b,older,rfl,hb,hcount⟩ := ih h
      exact ⟨a :: newer,b,older,rfl,hb,hcount⟩

theorem AllStarted.mono {h h' : History} (ha : AllStarted S run userId protocolName h) (hs : h <:+ h') :
    AllStarted S run userId protocolName h' :=
  ha.trans hs.sublist.countP_le

theorem reported_between {newer older : History} (hold : ¬Flagged x older userId protocolName)
    (hnew : Flagged x (newer ++ older) userId protocolName) : ∃ a before,
      a :: before <:+ newer ++ older ∧ Reports userId protocolName a ∧ older <:+ before := by
  unfold Flagged stored written at hold hnew
  rw [List.findSome?_append] at hnew
  cases hw : newer.findSome? (payloadAt userId (isInitializedKey protocolName)) with
  | none =>
    rw [hw] at hnew
    exact absurd hnew hold
  | some payload =>
    rw [hw] at hnew
    obtain ⟨payload,rfl,hflag⟩ := Option.bind_eq_some_iff.mp hnew
    obtain ⟨later,a,earlier,rfl,ha,-⟩ := List.findSome?_eq_some_iff.mp hw
    exact ⟨a,earlier ++ older,⟨later,by simp⟩,⟨payload,ha,hflag⟩,List.suffix_append _ _⟩

theorem flagged_of_read (hc : Reach S patience x c) {t : ℕ} {q : Request} {payload : Bytes}
    {past : History} (hs : .op t q (.operator (.storageRead userId (isInitializedKey protocolName)))
      (.ok payload : Except String Bytes) :: past <:+ c.state.history)
    (hflag : payload.head? = some 1) : Flagged x past userId protocolName := by
  obtain ⟨c₀,c₁,hc₀,rfl,hop,-⟩ := System.Reach.before hc hs
  have hread : c₀.state.shared.stored userId (isInitializedKey protocolName) = some payload := by
    cases hop with
    | op runs does =>
      obtain ⟨y,⟨hr,-⟩,-⟩ := does
      exact (hr payload).mp rfl
  rw [stored_run hc₀] at hread
  rw [Flagged,hread]
  exact hflag

theorem not_flagged_of_starts {a : Action Op Res Request} {past : History}
    (ha : startsOperator run userId protocolName a) (hcond : NotEarly S x a past) :
    ¬Flagged x (a :: past) userId protocolName := by
  unfold startsOperator at ha
  split at ha
  · next t h parent u jwt name param p userJwt vt addr started =>
    obtain ⟨-,rfl,rfl⟩ : parent = run ∧ u = userId ∧ name = protocolName := by simpa using ha
    exact hcond
  · cases ha

end Runs

/-- While no flag says too early that a protocol is initialised, no operator is started before those
of the protocols that come first. -/
theorem ordered_of_notEarly {x : Shared} {c : Configuration} (hc : Reach S patience x c)
    (hcond : Everywhere (NotEarly S x) c.state.history) : Everywhere (Ordered S) c.state.history := by
  refine everywhere_iff.mpr fun a past hs => ?_
  unfold Ordered
  split
  · next t h run u jwt name param p userJwt vt addr r =>
    intro first hf hpos
    obtain ⟨payload,hread,hflag⟩ := System.Reach.traced_op traced_serve hc hs _ _ _ _ _ _ rfl first hf
    obtain ⟨q,hread⟩ := mem_events.mp hread
    obtain rfl := System.Reach.same_request hc (hs.subset (List.mem_cons_of_mem _ hread))
      (hs.subset (List.mem_cons_self ..))
    obtain ⟨earlier,hearlier⟩ := suffix_of_mem hread
    have hpast := hearlier.trans ((List.suffix_cons _ _).trans hs)
    have hflagged := flagged_of_read hc hpast hflag
    have hall : AllStarted S run u first earlier := by
      by_contra hnot
      exact everywhere_iff.mp hcond _ _ hpast first hf rfl hnot hflagged
    obtain ⟨newer,b,older,rfl,hb,hcount⟩ := newest_of_countP (hpos.trans_le hall)
    have hstarted := everywhere_iff.mp hcond b older
      ((List.suffix_append _ _).trans ((List.suffix_cons _ _).trans hpast))
    obtain ⟨w,before,hw,hreports,hbefore⟩ := reported_between (not_flagged_of_starts hb hstarted) hflagged
    refine ⟨w,before,hw.trans ((List.suffix_cons _ _).trans hearlier),hreports,?_⟩
    have holder : AllStarted S run u first (b :: older) := by
      unfold AllStarted at hall ⊢
      exact hall.trans_eq hcount.symm
    exact holder.mono hbefore
  · trivial

instance (run : ℕ) (userId protocolName : String) (h : History) :
    Decidable (AllStarted S run userId protocolName h) :=
  inferInstanceAs (Decidable (_ ≤ _))

instance (x : Shared) (h : History) (userId protocolName : String) :
    Decidable (Flagged x h userId protocolName) :=
  inferInstanceAs (Decidable (_ = _))

instance (x : Shared) (a : Action Op Res Request) (past : History) :
    Decidable (NotEarly S x a past) := by
  unfold NotEarly
  split
  · split <;> infer_instance
  · infer_instance

/-- The second protocol is to be started after the first. -/
def pairConfig : List (String × Value) := [("first",.table [("operator_num",.integer 1)]),
  ("second",.table [("operator_num",.integer 1),("start_after",.array [.string "first"])])]

def pairServer : Server := sampleServer pairConfig

/-- An import, and its task that spawns the tasks of the two protocols. -/
def pairImport (t handle : ℕ) : List (Turn (Request ⊕ ℕ)) :=
  .start t (.inl sampleImport) :: List.replicate 8 (.step t) ++
    .start (t + 1) (.inr handle) :: List.replicate 2 (.step (t + 1))

/-- The operator of the first protocol is started, and reports. -/
def firstReports (t handle : ℕ) : List (Turn (Request ⊕ ℕ)) :=
  .start t (.inr handle) :: List.replicate 16 (.step t) ++
    [.start (t + 1) (.inl (.store sampleUser (isInitializedKey "first") [1])),.step (t + 1)]

/-- The operator of the second protocol is started. -/
def secondStarts (t handle : ℕ) : List (Turn (Request ⊕ ℕ)) :=
  .start t (.inr handle) :: List.replicate 12 (.step t)

/-- An operator of a protocol that is to be started after the given one. -/
def startsAfter (run : ℕ) (userId first : String) : Action Op Res Request → Bool
  | .op _ (.spawned _ (some parent) (.initProtocol u _ _ param)) (.operator (.startInstance _ _ _ _)) _ =>
      parent = run && (u = userId && first ∈ startAfter param)
  | _ => false

def importedOnce : Configuration := (player pairServer 1).play sampleShared
  (pairImport 0 0 ++ firstReports 2 1 ++ secondStarts 4 2)

theorem ordered_importedOnce : importedOnce.state.history.any (startsAfter 0 sampleUser "first") = true ∧
    Everywhere (Ordered pairServer) importedOnce.state.history := by
  have hrun : Reach pairServer 1 sampleShared importedOnce ∧
      importedOnce.state.history.any (startsAfter 0 sampleUser "first") = true ∧
      Everywhere (NotEarly pairServer sampleShared) importedOnce.state.history :=
    ⟨(player pairServer 1).reach_play (· = sampleShared) rfl _,by decide +kernel,by decide +kernel⟩
  generalize importedOnce = c at hrun ⊢
  obtain ⟨hc,hstarts,hcond⟩ := hrun
  exact ⟨hstarts,ordered_of_notEarly pairServer 1 hc hcond⟩

/-- After a second import the flag of the first protocol is still there. -/
def importedTwice : Configuration := (player pairServer 1).play sampleShared
  (pairImport 0 0 ++ firstReports 2 1 ++ pairImport 4 3 ++ secondStarts 6 5)

theorem not_ordered_of_startsAfter (run : ℕ) (userId first : String) {h : History}
    (hpos : 0 < operators S first) (hafter : h.any (startsAfter run userId first) = true)
    (hnone : h.countP (startsOperator run userId first) = 0) : ¬Everywhere (Ordered S) h := by
  intro hordered
  obtain ⟨a,ha,hstarts⟩ := List.any_eq_true.mp hafter
  obtain ⟨past,hs⟩ := suffix_of_mem ha
  have hstep := everywhere_iff.mp hordered a past hs
  unfold startsAfter at hstarts
  split at hstarts
  · obtain ⟨rfl,rfl,hf⟩ : _ ∧ _ ∧ _ := by simpa using hstarts
    obtain ⟨b,before,hb,-,hall⟩ := hstep first hf hpos
    have hbefore := ((List.suffix_cons _ _).trans hb).trans ((List.suffix_cons _ _).trans hs)
    have hle := hall.trans hbefore.sublist.countP_le
    omega
  · cases hstarts

/-- In the second run the operator of the second protocol is started, and none of the first. -/
theorem unordered_importedTwice : Reach pairServer 1 sampleShared importedTwice ∧
    ¬Everywhere (Ordered pairServer) importedTwice.state.history :=
  ⟨(player pairServer 1).reach_play (· = sampleShared) rfl _,
    not_ordered_of_startsAfter pairServer 3 sampleUser "first" (by decide +kernel) (by decide +kernel)
      (by decide +kernel)⟩

end UserInit
end CoLinkServer
