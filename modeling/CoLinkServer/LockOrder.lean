import CoLinkServer.SharedLocks
import Mathlib.Logic.Hydra

/-! Threads that take locks in an order. If each lock a thread waits for comes after those it has, then
no threads can wait for each other in a circle: as long as a thread has not ended, one of them can go
on, and as programs are finite, all of them end. -/
namespace CoLinkServer
namespace Interleaving

variable {Op : Type} {Res : Op → Type} {ε Req ρ σ α β X K L : Type} [DecidableEq K]

/-- How often something has been taken without being given back. -/
def Account.balance (A : Account Op Res X) (x : X) (h : List (Event Op Res)) : ℤ :=
  h.countP (A.earns x) - h.countP (A.spends x)

theorem Account.balance_cons (A : Account Op Res X) (x : X) (e : Event Op Res)
    (h : List (Event Op Res)) :
    A.balance x (e :: h) = A.balance x h + (A.earns x e).toNat - (A.spends x e).toNat := by
  cases he : A.earns x e <;> cases hs : A.spends x e <;>
    simp only [balance,List.countP_cons,he,hs,if_true,Bool.false_eq_true,if_false,Bool.toNat_true,
      Bool.toNat_false] <;> omega

theorem Account.covers_of_balance {A : Account Op Res X} {h : List (Event Op Res)}
    (hb : ∀ x, 0 ≤ A.balance x h) : A.Covers 0 h := fun x => by
  have hx := hb x
  simp only [balance] at hx
  simp only [Pi.zero_apply]
  omega

/-- Which operations take locks of a kind, which give them back, and in which order the kinds come. -/
structure LockUse (Op K : Type) where
  takes : Op → Option (K × Mode)
  gives : Op → Option (K × Mode)
  rank : K → ℕ

namespace LockUse

variable (U : LockUse Op K)

def account : Account Op Res (K × Mode) where
  earns x e := decide (U.takes e.1 = some x)
  spends x e := decide (U.gives e.1 = some x)

def held (x : K × Mode) (h : List (Event Op Res)) : ℤ := U.account.balance x h

theorem held_cons (x : K × Mode) (e : Event Op Res) (h : List (Event Op Res)) :
    U.held x (e :: h) = U.held x h + (decide (U.takes e.1 = some x)).toNat -
      (decide (U.gives e.1 = some x)).toNat := U.account.balance_cons x e h

@[simp] theorem held_nil (x : K × Mode) : U.held x ([] : List (Event Op Res)) = 0 := by
  simp [held,Account.balance]

/-- When a lock is taken, all those that the thread has come before it. -/
def InOrder : List (Event Op Res) → Prop
  | [] => True
  | e :: h => (∀ x, 0 ≤ U.held x (e :: h)) ∧ ∀ k m, U.takes e.1 = some (k,m) → ∀ k' m',
      0 < U.held (k',m') h → U.rank k' < U.rank k

/-- A program that takes only locks from the rank `n` on, in order, and gives all of them back. -/
def Orderly (n : ℕ) (p : Prog Op Res ε α) : Prop :=
  ∀ h, (∀ x, 0 ≤ U.held x h) → (∀ k m, 0 < U.held (k,m) h → U.rank k < n) →
    p.Traced U.InOrder h fun _ h' => ∀ x, U.held x h' = U.held x h

variable {U} {n n' : ℕ} {p : Prog Op Res ε α}

theorem Orderly.mono (hp : U.Orderly n' p) (hn : n ≤ n') : U.Orderly n p :=
  fun h h0 hb => hp h h0 fun k m hk => (hb k m hk).trans_le hn

theorem Orderly.bind {f : α → Prog Op Res ε β} (hp : U.Orderly n p) (hf : ∀ a, U.Orderly n (f a)) :
    U.Orderly n (p >>= f) := by
  intro h h0 hb
  refine Prog.Traced.bind ((hp h h0 hb).mono fun r h' hr => ?_)
  cases r with
  | error e => exact hr
  | ok a =>
    refine (hf a h' (fun x => (hr x).symm ▸ h0 x) fun k m hk => hb k m (hr (k,m) ▸ hk)).mono
      fun r h'' hr' x => (hr' x).trans (hr x)

theorem Orderly.attempt (hp : U.Orderly n p) : U.Orderly n p.attempt :=
  fun h h0 hb => Prog.Traced.attempt ((hp h h0 hb).mono fun _ _ hh => hh)

theorem orderly_of_all (hp : p.All fun o => U.takes o = none ∧ U.gives o = none) : U.Orderly n p := by
  intro h h0 _
  refine Prog.Traced.of_all hp (fun o ho r h' hh => ?_) fun x => rfl
  have hsame (x : K × Mode) : U.held x (⟨o,r⟩ :: h') = U.held x h := by
    rw [held_cons,ho.1,ho.2,hh x]
    simp
  refine ⟨⟨fun x => (hsame x).symm ▸ h0 x,fun k m he => ?_⟩,hsame⟩
  cases ho.1.symm.trans he

theorem orderly_closed : Prog.Closed fun _ (p : Prog Op Res ε _) => U.Orderly n p where
  ret _ := fun _ _ _ _ => rfl
  fail _ := fun _ _ _ _ => rfl
  bind := Orderly.bind
  bracket ha hr hb := ha.bind fun _ => hb.attempt.bind fun r => hr.bind fun _ => by
    cases r <;> exact fun _ _ _ _ => rfl

/-- A section in which the body has a lock, and takes only locks that come after it. -/
theorem Orderly.guard {a b : Op} {f : Res b → Except ε Unit} {k : K} {m : Mode}
    (ha : U.takes a = some (k,m) ∧ U.gives a = none) (hb : U.takes b = none ∧ U.gives b = some (k,m))
    (hp : U.Orderly (U.rank k + 1) p) : U.Orderly (U.rank k)
      (Prog.bracket (.call a fun _ => .ret ()) (.call b fun r => .ofExcept (f r)) p) := by
  intro h h0 hbelow r
  have htaken (x : K × Mode) : U.held x (⟨a,r⟩ :: h) = U.held x h + (decide ((k,m) = x)).toNat := by
    simp [held_cons,ha.1,ha.2]
  have hpos (x : K × Mode) : 0 ≤ U.held x (⟨a,r⟩ :: h) := by
    have hx := h0 x
    rw [htaken]
    omega
  have hgiven (h' : List (Event Op Res)) (r' : Res b)
      (hsame : ∀ x, U.held x h' = U.held x (⟨a,r⟩ :: h)) (x : K × Mode) :
      U.held x (⟨b,r'⟩ :: h') = U.held x h := by
    simp [held_cons,hb.1,hb.2,hsame,htaken]
  refine ⟨⟨hpos,fun k' m' he k'' m'' hk => ?_⟩,?_⟩
  · obtain ⟨rfl,rfl⟩ := Prod.mk.inj (Option.some.inj (ha.1.symm.trans he))
    exact hbelow k'' m'' hk
  · show (p.attempt >>= fun e => Prog.call b (fun r => .ofExcept (f r)) >>= fun _ =>
      .ofExcept e).Traced _ _ _
    refine Prog.Traced.bind (Prog.Traced.attempt ((hp _ hpos fun k' m' hk => ?_).mono
      fun e h' hsame => ?_))
    · rw [htaken] at hk
      by_cases hx : (k,m) = (k',m')
      · obtain ⟨rfl,rfl⟩ := Prod.mk.inj hx
        exact Nat.lt_succ_self _
      · exact (hbelow k' m' (by simpa [hx] using hk)).trans (Nat.lt_succ_self _)
    · refine fun r' => ⟨⟨fun x => (hgiven h' r' hsame x).symm ▸ h0 x,fun k' m' he => ?_⟩,?_⟩
      · cases hb.1.symm.trans he
      · show (Prog.ofExcept (f r') >>= fun _ => Prog.ofExcept e).Traced _ _ _
        cases f r' with
        | ok _ =>
          exact Prog.Traced.ofExcept (Q := fun _ h'' => ∀ x, U.held x h'' = U.held x h)
            (hgiven h' r' hsame)
        | error _ => exact hgiven h' r' hsame

end LockUse

namespace System

variable (S : System Op Res ε Req ρ σ)

/-- However the threads take turns from here on, they come to an end: no step is the last one while a
thread has something left to do, and there are only finitely many steps. -/
inductive Finishes : Config Op Res ε Req ρ σ → Prop
  | intro {c : Config Op Res ε Req ρ σ}
      (moves : ∀ t q o k, c.threads t = some (q,.call o k) →
        ∃ t' q' o' r c', S.Step c (.op t' q' o' r) c')
      (rest : ∀ t q o r c', S.Step c (.op t q o r) c' → Finishes c') : Finishes c

variable {S}

/-- What is left of a program after an operation. -/
def Left (x y : Option (Prog Op Res ε ρ)) : Prop := ∃ o k r, y = some (.call o k) ∧ x = some (k r)

theorem left_wellFounded :
    WellFounded (Left : Option (Prog Op Res ε ρ) → Option (Prog Op Res ε ρ) → Prop) := by
  have hprog (p : Prog Op Res ε ρ) : Acc Left (some p) := by
    induction p with
    | ret a => exact ⟨_,fun x ⟨o,k,r,he,_⟩ => by cases he⟩
    | fail e => exact ⟨_,fun x ⟨o,k,r,he,_⟩ => by cases he⟩
    | call o k ih =>
      refine ⟨_,fun x ⟨o',k',r,he,hx⟩ => ?_⟩
      cases he
      exact hx ▸ ih r
  refine ⟨fun x => ?_⟩
  cases x with
  | none => exact ⟨_,fun x ⟨o,k,r,he,_⟩ => by cases he⟩
  | some p => exact hprog p

theorem Reach.finite {init : σ → Prop} {c : Config Op Res ε Req ρ σ} (hc : S.Reach init c) :
    ∃ started : Finset ℕ, ∀ t ∉ started, c.threads t = none := by
  induction hc with
  | init _ => exact ⟨∅,fun _ _ => rfl⟩
  | @step c c' a _ s ih =>
    obtain ⟨started,hnone⟩ := ih
    cases s with
    | @start t q x fresh begins =>
      refine ⟨insert t started,fun u hu => ?_⟩
      rw [Finset.mem_insert,not_or] at hu
      simpa [hu.1] using hnone u hu.2
    | @op t q o k r x runs does =>
      refine ⟨insert t started,fun u hu => ?_⟩
      rw [Finset.mem_insert,not_or] at hu
      simpa [hu.1] using hnone u hu.2
    | env moves => exact ⟨started,hnone⟩

/-- The threads that have started cannot perform operations for ever. -/
theorem Reach.induction_on_left {init : σ → Prop} {P : Config Op Res ε Req ρ σ → Prop}
    (hP : ∀ c, S.Reach init c → (∀ t q o r c', S.Step c (.op t q o r) c' → P c') → P c)
    {c : Config Op Res ε Req ρ σ} (hc : S.Reach init c) : P c := by
  obtain ⟨started,hnone⟩ := hc.finite
  let work (c : Config Op Res ε Req ρ σ) : Multiset (Option (Prog Op Res ε ρ)) :=
    started.val.map fun t => (c.threads t).map Prod.snd
  have hleft : WellFounded (Left : Option (Prog Op Res ε ρ) → Option (Prog Op Res ε ρ) → Prop) :=
    left_wellFounded
  have hwf := InvImage.wf work hleft.cutExpand
  induction c using hwf.induction with
  | _ c ih =>
    refine hP c hc fun t q o r c' hstep => ?_
    have hc' := hc.step hstep
    cases hstep with
    | @op _ _ _ k _ x runs does =>
      have ht : t ∈ started := by
        by_contra hn
        rw [hnone t hn] at runs
        cases runs
      refine ih _ ?_ hc' fun u hu => ?_
      · have hval : started.val = t ::ₘ (started.erase t).val := by
          rw [← Finset.insert_val_of_notMem (Finset.notMem_erase t started),Finset.insert_erase ht]
        have hother : (started.erase t).val.map (fun u => ((Function.update c.threads t
            (some (q,k r))) u).map Prod.snd) =
            (started.erase t).val.map fun u => (c.threads u).map Prod.snd :=
          Multiset.map_congr rfl fun u hu => by
            rw [Function.update_of_ne (Finset.ne_of_mem_erase hu)]
        show Relation.CutExpand Left (work _) (work c)
        simp only [work]
        rw [hval,Multiset.map_cons,Multiset.map_cons,hother,Function.update_self,runs,
          ← Multiset.singleton_add,← Multiset.singleton_add]
        refine (Relation.cutExpand_add_right _).mpr (Relation.cutExpand_singleton_singleton ?_)
        exact ⟨o,k,r,rfl,rfl⟩
      · simpa [(ne_of_mem_of_not_mem ht hu).symm] using hnone u hu

end System

/-- Whether a lock in this state can be taken. -/
def Mode.Open (readers : ℕ) (writer : Bool) : Mode → Prop
  | .shared => writer = false
  | .exclusive => writer = false ∧ readers = 0

/-- What the state says of each lock. A lock is of a kind, and belongs to some of the requests only. -/
structure LockTable (S : System Op Res ε Req ρ σ) (init : σ → Prop) (K L : Type) [DecidableEq K] where
  use : LockUse Op K
  bound : ℕ
  kind : L → K
  on : L → Req → Bool
  readers : L → σ → ℕ
  writer : L → σ → Bool
  bounded : ∀ k, use.rank k < bound
  apart : ∀ o x, use.takes o = some x → use.gives o = none
  answered : ∀ o x, use.takes o = some x → Nonempty (Res o)
  free : ∀ l x, init x → readers l x = 0 ∧ writer l x = false
  reads : ∀ l t q o s r y, S.exec t q o s r y → readers l y = readers l s.shared +
    (on l q && decide (use.takes o = some (kind l,.shared))).toNat -
    (on l q && decide (use.gives o = some (kind l,.shared))).toNat
  writes : ∀ l t q o s r y, S.exec t q o s r y → (writer l y).toNat = (writer l s.shared).toNat +
    (on l q && decide (use.takes o = some (kind l,.exclusive))).toNat -
    (on l q && decide (use.gives o = some (kind l,.exclusive))).toNat
  start : ∀ l t q s y, S.start t q s y →
    readers l y = readers l s.shared ∧ writer l y = writer l s.shared
  env : ∀ l s y, S.env s y → readers l y = readers l s.shared ∧ writer l y = writer l s.shared
  orderly : ∀ q, use.Orderly 0 (S.body q)

/-- Nothing but a lock can keep an operation from being performed. -/
structure LockOrder (S : System Op Res ε Req ρ σ) (init : σ → Prop) (K L : Type) [DecidableEq K]
    extends LockTable S init K L where
  possible : ∀ c t q o k, S.Reach init c → c.threads t = some (q,.call o k) →
    (∀ l m, on l q → use.takes o = some (kind l,m) →
      m.Open (readers l c.state.shared) (writer l c.state.shared)) →
    ∃ r y, S.exec t q o c.state r y

namespace LockTable

variable {S : System Op Res ε Req ρ σ} {init : σ → Prop} (O : LockTable S init K L)
  {c : Config Op Res ε Req ρ σ}

theorem traced (q : Req) : (S.body q).Traced O.use.InOrder [] fun _ h => ∀ x, O.use.held x h = 0 :=
  (O.orderly q [] (fun x => (O.use.held_nil x).ge) fun k m hk => by simp at hk).mono
    fun r h hh x => (hh x).trans (O.use.held_nil x)

theorem disciplined (q : Req) : (S.body q).Traced (O.use.account.Covers 0) [] fun _ _ => True :=
  ((O.traced q).weaken fun h hh => by
    cases h with
    | nil => exact fun _ => le_rfl
    | cons e h => exact Account.covers_of_balance hh.1).mono fun _ _ _ => trivial

/-- How often the lock has been taken, and given back, in a run. -/
def taken (l : L) (m : Mode) (h : List (Action Op Res Req)) : ℕ :=
  h.countP (Action.meets (O.on l) (O.use.account.earns (O.kind l,m)))

def given (l : L) (m : Mode) (h : List (Action Op Res Req)) : ℕ :=
  h.countP (Action.meets (O.on l) (O.use.account.spends (O.kind l,m)))

theorem countP_op (on : Req → Bool) (P : Event Op Res → Bool) (t : ℕ) (q : Req) (o : Op) (r : Res o)
    (h : List (Action Op Res Req)) : (Action.op t q o r :: h).countP (Action.meets on P) =
      h.countP (Action.meets on P) + (on q && P ⟨o,r⟩).toNat := by
  rw [List.countP_cons]
  cases hp : on q && P ⟨o,r⟩ <;> simp [Action.meets,hp]

/-- The state counts who has a lock. -/
theorem counted (hc : S.Reach init c) (l : L) :
    O.readers l c.state.shared + O.given l .shared c.state.history = O.taken l .shared c.state.history ∧
    (O.writer l c.state.shared).toNat + O.given l .exclusive c.state.history =
      O.taken l .exclusive c.state.history := by
  induction hc with
  | init hx =>
    obtain ⟨hr,hw⟩ := O.free l _ hx
    simp [hr,hw,taken,given]
  | @step c c' a hc s ih =>
    have hcovered (m : Mode) := (hc.step s).covered O.disciplined (O.on l) (O.kind l,m)
    obtain ⟨hreaders,hwriter⟩ := ih
    cases s with
    | start fresh begins =>
      obtain ⟨hr,hw⟩ := O.start l _ _ _ _ begins
      simpa [hr,hw,taken,given,Action.meets] using ⟨hreaders,hwriter⟩
    | env moves =>
      obtain ⟨hr,hw⟩ := O.env l _ _ moves
      simpa [hr,hw,taken,given,Action.meets] using ⟨hreaders,hwriter⟩
    | @op t q o k r x runs does =>
      have hs := hcovered .shared
      have he := hcovered .exclusive
      have hreads := O.reads l t q o c.state r x does
      have hwrites := O.writes l t q o c.state r x does
      simp only [State.push_history,countP_op,LockUse.account] at hs he
      simp only [State.push_shared,State.push_history,taken,given,countP_op,LockUse.account]
        at hreaders hwriter ⊢
      exact ⟨by omega,by omega⟩

theorem exists_holder (hc : S.Reach init c) {l : L} {m : Mode}
    (hlt : O.given l m c.state.history < O.taken l m c.state.history) :
    ∃ t q p, c.threads t = some (q,p) ∧ 0 < O.use.held (O.kind l,m) (events t c.state.history) := by
  obtain ⟨threads,request,hr⟩ := hc.exists_threads
  rw [given,taken,countP_eq_sum _ _ hr,countP_eq_sum _ _ hr] at hlt
  obtain ⟨t,-,ht⟩ := Finset.exists_lt_of_sum_lt hlt
  cases hthread : c.threads t with
  | none =>
    rw [(hc.traced O.traced t).1 hthread] at ht
    simp at ht
  | some y =>
    refine ⟨t,y.1,y.2,hthread,?_⟩
    simp only [LockUse.held,Account.balance]
    omega

theorem holder_of_closed (hc : S.Reach init c) {l : L} {m : Mode}
    (hclosed : ¬ m.Open (O.readers l c.state.shared) (O.writer l c.state.shared)) :
    ∃ t q p m', c.threads t = some (q,p) ∧
      0 < O.use.held (O.kind l,m') (events t c.state.history) := by
  obtain ⟨hreaders,hwriter⟩ := O.counted hc l
  have hwith (m' : Mode) (hlt : O.given l m' c.state.history < O.taken l m' c.state.history) :
      ∃ t q p m', c.threads t = some (q,p) ∧
        0 < O.use.held (O.kind l,m') (events t c.state.history) := by
    obtain ⟨t,q,p,ht,hb⟩ := O.exists_holder hc hlt
    exact ⟨t,q,p,m',ht,hb⟩
  cases hw : O.writer l c.state.shared with
  | true =>
    rw [hw,Bool.toNat_true] at hwriter
    exact hwith .exclusive (by omega)
  | false =>
    cases m with
    | shared => exact absurd hw hclosed
    | exclusive =>
      have hr : O.readers l c.state.shared ≠ 0 := fun hr => hclosed ⟨hw,hr⟩
      exact hwith .shared (by omega)

theorem closed_of_held (hc : S.Reach init c) {l : L} {t : ℕ} {q : Req} {p : Prog Op Res ε ρ}
    (ht : c.threads t = some (q,p)) (hon : O.on l q)
    (hhas : 0 < O.use.held (O.kind l,.exclusive) (events t c.state.history)) :
    O.writer l c.state.shared = true := by
  have hlt := hc.covered_lt O.disciplined (O.on l) (O.kind l,.exclusive) (t := t)
    (fun q' p' he => (Prod.mk.inj (Option.some.inj (ht.symm.trans he))).1 ▸ hon) (by
      simp only [LockUse.held,Account.balance] at hhas
      omega)
  have hcount := (O.counted hc l).2
  simp only [taken,given] at hcount
  cases hw : O.writer l c.state.shared with
  | true => rfl
  | false =>
    rw [hw,Bool.toNat_false] at hcount
    omega

theorem held_of_gives (hc : S.Reach init c) {t : ℕ} {q : Req} {o : Op} {k : Res o → Prog Op Res ε ρ}
    (ht : c.threads t = some (q,.call o k)) (r : Res o) {x : K × Mode} (hg : O.use.gives o = some x) :
    0 < O.use.held x (events t c.state.history) := by
  have hnext := (((hc.traced O.traced t).2 q _ ht).1 r).1.1 x
  have htakes : O.use.takes o ≠ some x := fun he => by cases (O.apart o x he).symm.trans hg
  rw [LockUse.held_cons] at hnext
  simp only [hg,htakes,decide_true,decide_false,Bool.toNat_true,Bool.toNat_false] at hnext
  omega

theorem open_of_ended (hc : S.Reach init c)
    (hend : ∀ t q p, c.threads t = some (q,p) → ∃ r, p = Prog.ofExcept r) (l : L) (m : Mode) :
    m.Open (O.readers l c.state.shared) (O.writer l c.state.shared) := by
  by_contra hclosed
  obtain ⟨t,q,p,m',ht,hhas⟩ := O.holder_of_closed hc hclosed
  obtain ⟨r,rfl⟩ := hend t q p ht
  rw [hc.traced_end O.traced ht] at hhas
  exact absurd hhas (lt_irrefl 0)

/-- A state that names the owner of a lock names the thread that has it. -/
theorem owned (hc : S.Reach init c) {l : L} (owner : σ → Option ℕ)
    (htake : ∀ t q o s r y, S.exec t q o s r y → O.on l q →
      O.use.takes o = some (O.kind l,.exclusive) → owner y = some t)
    (hother : ∀ t q o s r y, S.exec t q o s r y →
      (O.on l q → O.use.takes o ≠ some (O.kind l,.exclusive) ∧
        O.use.gives o ≠ some (O.kind l,.exclusive)) → owner y = owner s.shared)
    (hstart : ∀ t q s y, S.start t q s y → owner y = owner s.shared)
    (henv : ∀ s y, S.env s y → owner y = owner s.shared) {t : ℕ} {q : Req} {p : Prog Op Res ε ρ}
    (ht : c.threads t = some (q,p)) (hon : O.on l q)
    (hhas : 0 < O.use.held (O.kind l,.exclusive) (events t c.state.history)) :
    owner c.state.shared = some t := by
  induction hc generalizing q p with
  | init _ => cases ht
  | @step c c' a hc s ih =>
    have hclosed := O.closed_of_held (hc.step s) ht hon hhas
    cases s with
    | @start u q' x fresh begins =>
      have hne : t ≠ u := by
        rintro rfl
        have hnone := (hc.traced O.traced t).1 fresh
        simp [hnone] at hhas
      rw [State.push_shared,hstart _ _ _ _ begins]
      exact ih (by simpa [hne] using ht) hon (by simpa using hhas)
    | env moves =>
      rw [State.push_shared,henv _ _ moves]
      exact ih ht hon (by simpa using hhas)
    | @op u q' o k r x runs does =>
      have hwrites := O.writes l u q' o c.state r x does
      rw [State.push_shared] at hclosed ⊢
      rw [hclosed,Bool.toNat_true] at hwrites
      by_cases hne : u = t
      · subst hne
        obtain rfl : q' = q := by simpa using congrArg (Option.map Prod.fst) ht
        by_cases htakes : O.use.takes o = some (O.kind l,.exclusive)
        · exact htake _ _ _ _ _ _ does hon htakes
        · have hgives : O.use.gives o ≠ some (O.kind l,.exclusive) := fun hgives => by
            have hle := Bool.toNat_le (O.writer l c.state.shared)
            simp [hon,htakes,hgives] at hwrites
            omega
          rw [hother _ _ _ _ _ _ does fun _ => ⟨htakes,hgives⟩]
          refine ih runs hon ?_
          rw [State.push_history,events_op_self,LockUse.held_cons] at hhas
          simpa [htakes,hgives] using hhas
      · have hbefore : owner c.state.shared = some t := by
          refine ih (by simpa [Ne.symm hne] using ht) hon ?_
          rwa [State.push_history,events_op_of_ne hne] at hhas
        have hheld := O.closed_of_held hc (by simpa [Ne.symm hne] using ht) hon
          (by rwa [State.push_history,events_op_of_ne hne] at hhas)
        rw [hheld,Bool.toNat_true] at hwrites
        refine (hother _ _ _ _ _ _ does fun hon' => ⟨fun htakes => ?_,fun hgives => ?_⟩).trans hbefore
        · simp [hon',htakes,O.apart o _ htakes] at hwrites
        · have htakes : O.use.takes o ≠ some (O.kind l,.exclusive) := fun htakes => by
            cases (O.apart o _ htakes).symm.trans hgives
          simp [hon',htakes,hgives] at hwrites

end LockTable

namespace LockOrder

variable {S : System Op Res ε Req ρ σ} {init : σ → Prop} (O : LockOrder S init K L)
  {c : Config Op Res ε Req ρ σ}

theorem goes_or_waits (hc : S.Reach init c) {t : ℕ} {q : Req} {o : Op} {k : Res o → Prog Op Res ε ρ}
    (ht : c.threads t = some (q,.call o k)) : (∃ r c', S.Step c (.op t q o r) c') ∨
      ∃ (l : L) (m : Mode), O.use.takes o = some (O.kind l,m) ∧
        ¬ m.Open (O.readers l c.state.shared) (O.writer l c.state.shared) := by
  by_cases hopen : ∀ l m, O.on l q → O.use.takes o = some (O.kind l,m) →
      m.Open (O.readers l c.state.shared) (O.writer l c.state.shared)
  · obtain ⟨r,y,hx⟩ := O.possible c t q o k hc ht hopen
    exact .inl ⟨r,_,.op ht hx⟩
  · push Not at hopen
    obtain ⟨l,m,-,he,hclosed⟩ := hopen
    exact .inr ⟨l,m,he,hclosed⟩

theorem later_of_waits (hc : S.Reach init c) {t : ℕ} {q : Req} {o : Op} {k : Res o → Prog Op Res ε ρ}
    (ht : c.threads t = some (q,.call o k)) {l l' : L} {m m' : Mode}
    (he : O.use.takes o = some (O.kind l',m'))
    (hhas : 0 < O.use.held (O.kind l,m) (events t c.state.history)) :
    O.use.rank (O.kind l) < O.use.rank (O.kind l') := by
  obtain ⟨r⟩ := O.answered o _ he
  exact (((hc.traced O.traced t).2 q _ ht).1 r).1.2 _ _ he _ _ hhas

/-- Whoever waits, waits for a thread that has come further. -/
theorem advances_of_closed (hc : S.Reach init c) (n : ℕ) : ∀ (l : L) (m : Mode),
    O.bound - O.use.rank (O.kind l) ≤ n →
    ¬ m.Open (O.readers l c.state.shared) (O.writer l c.state.shared) →
    ∃ t q o r c', S.Step c (.op t q o r) c' := by
  induction n with
  | zero =>
    intro l m hn
    have hl := O.bounded (O.kind l)
    omega
  | succ n ih =>
    intro l m hn hclosed
    obtain ⟨t,q,p,m',ht,hhas⟩ := O.holder_of_closed hc hclosed
    cases p with
    | ret a =>
      rw [hc.traced_end O.traced (r := .ok a) ht] at hhas
      exact absurd hhas (lt_irrefl 0)
    | fail e =>
      rw [hc.traced_end O.traced (r := .error e) ht] at hhas
      exact absurd hhas (lt_irrefl 0)
    | call o k =>
      rcases O.goes_or_waits hc ht with ⟨r,c',hgoes⟩ | ⟨l',m'',he,hclosed'⟩
      · exact ⟨t,q,o,r,c',hgoes⟩
      · have hlt := O.later_of_waits hc ht he hhas
        have hl' := O.bounded (O.kind l')
        exact ih l' m'' (by omega) hclosed'

theorem advances (O : LockOrder S init K L) (hc : S.Reach init c) {t : ℕ} {q : Req} {o : Op}
    {k : Res o → Prog Op Res ε ρ} (ht : c.threads t = some (q,.call o k)) :
    ∃ t q o r c', S.Step c (.op t q o r) c' := by
  rcases O.goes_or_waits hc ht with ⟨r,c',hgoes⟩ | ⟨l,m,-,hclosed⟩
  · exact ⟨t,q,o,r,c',hgoes⟩
  · exact O.advances_of_closed hc _ l m le_rfl hclosed

theorem finishes (O : LockOrder S init K L) (hc : S.Reach init c) : S.Finishes c :=
  hc.induction_on_left fun _ hc hrest => .intro (fun _ _ _ _ ht => O.advances hc ht) hrest

end LockOrder

end Interleaving
end CoLinkServer
