import CoLinkServer.ThreadTraces
import Mathlib.Algebra.BigOperators.Group.Finset.Piecewise
import Mathlib.Algebra.Group.Nat.Defs
import Mathlib.Algebra.Group.Pi.Basic
import Mathlib.Algebra.Order.BigOperators.Group.Finset
import Mathlib.Algebra.Order.Group.Nat
import Mathlib.Algebra.GroupWithZero.Nat

/-! Counting what threads do. Some events of a thread earn something and others spend it. If no
program ever spends more than it has earned, then neither do all the threads of a run together. -/
namespace CoLinkServer
namespace Interleaving

variable {Op : Type} {Res : Op → Type} {ε Req ρ σ α β X : Type}

/-- Which events earn and which spend a thing of the kind `X`. -/
structure Account (Op : Type) (Res : Op → Type) (X : Type) where
  earns : X → Event Op Res → Bool
  spends : X → Event Op Res → Bool

namespace Account

variable (A : Account Op Res X)

/-- After what has been spent, this much is left. -/
def Covers (credit : X → ℕ) (h : List (Event Op Res)) : Prop :=
  ∀ x, h.countP (A.spends x) + credit x ≤ h.countP (A.earns x)

/-- What is left in the end; nobody cares how much after a failure. -/
def Left (credit : X → ℕ) : Except ε α → List (Event Op Res) → Prop
  | .ok _ => A.Covers credit
  | .error _ => A.Covers 0

/-- Given the credit `c` the program never overdraws and leaves the credit `d`, and it does not
touch what there is beside `c`. -/
def Affords (c d : X → ℕ) (p : Prog Op Res ε α) : Prop :=
  ∀ (rest : X → ℕ) (h : List (Event Op Res)), A.Covers (rest + c) h →
    p.Traced (A.Covers 0) h (A.Left (rest + d))

variable {A} {c d e : X → ℕ} {h : List (Event Op Res)}

theorem Covers.mono (hc : A.Covers c h) (hd : ∀ x, d x ≤ c x) : A.Covers d h := fun x => by
  have hx := hc x
  have hy := hd x
  omega

theorem Covers.zero (hc : A.Covers c h) : A.Covers 0 h := hc.mono fun _ => Nat.zero_le _

@[simp] theorem affords_ret (a : α) : A.Affords c c (.ret a : Prog Op Res ε α) := fun _ _ hc => hc

@[simp] theorem affords_fail (e : ε) : A.Affords c d (.fail e : Prog Op Res ε α) :=
  fun _ _ hc => hc.zero

theorem affords_call {o : Op} {k : Res o → Prog Op Res ε α} (c' : X → ℕ)
    (cost : ∀ r x, (A.spends x ⟨o,r⟩).toNat + c' x ≤ (A.earns x ⟨o,r⟩).toNat + c x)
    (hk : ∀ r, A.Affords c' d (k r)) : A.Affords c d (.call o k) := by
  intro rest h hc r
  have hcover : A.Covers (rest + c') (⟨o,r⟩ :: h) := by
    intro x
    have hx := hc x
    have hcost := cost r x
    simp only [Pi.add_apply] at hx ⊢
    cases hs : A.spends x ⟨o,r⟩ <;> cases he : A.earns x ⟨o,r⟩ <;>
      simp only [hs,he,Bool.toNat_true,Bool.toNat_false] at hcost <;>
      simp only [List.countP_cons,hs,he,if_true,Bool.false_eq_true,if_false] <;> omega
  exact ⟨hcover.zero,hk r rest _ hcover⟩

theorem Affords.bind {p : Prog Op Res ε α} {f : α → Prog Op Res ε β} (hp : A.Affords c d p)
    (hf : ∀ a, A.Affords d e (f a)) : A.Affords c e (p >>= f) := by
  intro rest h hc
  refine Prog.Traced.bind ((hp rest h hc).mono fun r h' hr => ?_)
  cases r with
  | ok a => exact hf a rest h' hr
  | error _ => exact hr

theorem Affords.frame {p : Prog Op Res ε α} (hp : A.Affords c d p) (e : X → ℕ) :
    A.Affords (c + e) (d + e) p := by
  intro rest h hc
  have hcover : A.Covers (rest + e + c) h := by rwa [add_assoc,add_comm e c]
  have hh := hp (rest + e) h hcover
  rwa [add_assoc,add_comm e d] at hh

theorem Affords.keep {p : Prog Op Res ε α} (hp : A.Affords 0 0 p) (c : X → ℕ) : A.Affords c c p := by
  simpa only [zero_add] using hp.frame c

theorem affords_of_all {φ : Op → Prop} (hφ : ∀ o, φ o → ∀ r x, A.spends x ⟨o,r⟩ = false)
    {p : Prog Op Res ε α} (hp : p.All φ) (c : X → ℕ) : A.Affords c c p := by
  induction p with
  | ret a => exact affords_ret a
  | fail e => exact affords_fail e
  | call o k ih =>
    refine affords_call c (fun r x => ?_) fun r => ih r (hp.2 r)
    rw [hφ o hp.1 r x]
    simp

theorem affords_foldlM {ι : Type} {f : α → ι → Prog Op Res ε α} (hf : ∀ a i, A.Affords c c (f a i))
    (is : List ι) (a : α) : A.Affords c c (is.foldlM f a) := by
  induction is generalizing a with
  | nil => exact affords_ret a
  | cons i is ih =>
    rw [List.foldlM_cons]
    exact (hf a i).bind ih

theorem Affords.bracket {acquire release : Prog Op Res ε Unit} {body : Prog Op Res ε α}
    (ha : A.Affords 0 0 acquire) (hr : A.Affords 0 0 release) (hb : A.Affords c d body) :
    A.Affords c d (Prog.bracket acquire release body) := by
  refine (ha.keep c).bind fun _ => ?_
  intro rest h hc
  refine Prog.Traced.bind (Prog.Traced.attempt ((hb rest h hc).mono fun r h' hl => ?_))
  refine Prog.Traced.bind ?_
  cases r with
  | ok a =>
    refine (hr.keep d rest h' hl).mono fun r' h'' hl' => ?_
    cases r' with
    | ok _ => exact hl'
    | error _ => exact hl'
  | error e =>
    refine (hr 0 h' hl).mono fun r' h'' hl' => ?_
    cases r' with
    | ok _ => exact hl'
    | error _ => exact hl'

theorem closed_affords (A : Account Op Res X) :
    Prog.Closed fun _ (p : Prog Op Res ε _) => A.Affords 0 0 p where
  ret a := affords_ret a
  fail e := affords_fail e
  bind := Affords.bind
  bracket := Affords.bracket

end Account

/-- The action is an event of this kind, for a request of this kind. -/
def Action.meets (on : Req → Bool) (P : Event Op Res → Bool) : Action Op Res Req → Bool
  | .op _ q o r => on q && P ⟨o,r⟩
  | _ => false

/-- The events of a run are those of its threads. -/
theorem countP_eq_sum {request : ℕ → Option Req} {threads : Finset ℕ} (on : Req → Bool)
    (P : Event Op Res → Bool) {h : List (Action Op Res Req)}
    (hr : ∀ t q o r, .op t q o r ∈ h → t ∈ threads ∧ request t = some q) :
    h.countP (Action.meets on P) =
      ∑ t ∈ threads with (request t).any on, (events t h).countP P := by
  induction h with
  | nil => simp
  | cons a h ih =>
    have hih := ih fun t q o r hm => hr t q o r (List.mem_cons_of_mem _ hm)
    cases a with
    | start u q => simpa [Action.meets] using hih
    | env => simpa [Action.meets] using hih
    | op u q o r =>
      obtain ⟨hu,hq⟩ := hr u q o r (List.mem_cons_self ..)
      have hone (t : ℕ) : (events t (.op u q o r :: h)).countP P =
          (events t h).countP P + if u = t then (P ⟨o,r⟩).toNat else 0 := by
        split_ifs with ht
        · subst ht
          rw [events_op_self,List.countP_cons]
          cases P ⟨o,r⟩ <;> rfl
        · rw [events_op_of_ne ht,Nat.add_zero]
      have hmem : (u ∈ threads.filter fun t => (request t).any on) ↔ on q := by simp [hu,hq]
      rw [List.countP_cons,hih,Finset.sum_congr rfl fun t _ => hone t,Finset.sum_add_distrib,
        Finset.sum_ite_eq]
      congr 1
      cases hon : on q <;> cases hP : P ⟨o,r⟩ <;> simp [Action.meets,hmem,hon,hP]

namespace System

variable {S : System Op Res ε Req ρ σ}

theorem Reach.exists_threads {init : σ → Prop} {c : Config Op Res ε Req ρ σ} (hc : S.Reach init c) :
    ∃ threads : Finset ℕ, ∃ request : ℕ → Option Req, ∀ t q o r,
      Action.op t q o r ∈ c.state.history → t ∈ threads ∧ request t = some q := by
  refine ⟨(c.state.history.filterMap Action.thread).toFinset,fun t => (c.threads t).map Prod.fst,
    fun t q o r hm => ⟨List.mem_toFinset.mpr (List.mem_filterMap.mpr ⟨_,hm,rfl⟩),?_⟩⟩
  cases ht : c.threads t with
  | none => exact absurd rfl ((hc.history_thread t).1 ht _ hm)
  | some y =>
    show (c.threads t).map Prod.fst = some q
    rw [ht,((hc.history_thread t).2 y.1 y.2 ht).2 q o r hm]
    rfl

theorem Reach.thread_covered {init : σ → Prop} {A : Account Op Res X}
    (body : ∀ q, (S.body q).Traced (A.Covers 0) [] fun _ _ => True) {c : Config Op Res ε Req ρ σ}
    (hc : S.Reach init c) (x : X) (t : ℕ) : (events t c.state.history).countP (A.spends x) ≤
      (events t c.state.history).countP (A.earns x) := by
  cases he : events t c.state.history with
  | nil => exact le_rfl
  | cons e past =>
    cases ht : c.threads t with
    | none =>
      rw [(hc.traced body t).1 ht] at he
      cases he
    | some y =>
      have hcover := ((hc.traced body t).2 y.1 y.2 ht).2 e past (he ▸ List.suffix_rfl)
      exact hcover x

theorem Reach.covered {init : σ → Prop} {A : Account Op Res X}
    (body : ∀ q, (S.body q).Traced (A.Covers 0) [] fun _ _ => True) {c : Config Op Res ε Req ρ σ}
    (hc : S.Reach init c) (on : Req → Bool) (x : X) :
    c.state.history.countP (Action.meets on (A.spends x)) ≤
      c.state.history.countP (Action.meets on (A.earns x)) := by
  obtain ⟨threads,request,hr⟩ := hc.exists_threads
  rw [countP_eq_sum on _ hr,countP_eq_sum on _ hr]
  exact Finset.sum_le_sum fun t _ => hc.thread_covered body x t

/-- If besides one of them has something left, then so have all together. -/
theorem Reach.covered_lt {init : σ → Prop} {A : Account Op Res X}
    (body : ∀ q, (S.body q).Traced (A.Covers 0) [] fun _ _ => True) {c : Config Op Res ε Req ρ σ}
    (hc : S.Reach init c) (on : Req → Bool) (x : X) {t : ℕ}
    (hon : ∀ q p, c.threads t = some (q,p) → on q)
    (hlt : (events t c.state.history).countP (A.spends x) <
      (events t c.state.history).countP (A.earns x)) :
    c.state.history.countP (Action.meets on (A.spends x)) <
      c.state.history.countP (Action.meets on (A.earns x)) := by
  obtain ⟨threads,request,hr⟩ := hc.exists_threads
  rw [countP_eq_sum on _ hr,countP_eq_sum on _ hr]
  refine Finset.sum_lt_sum (fun u _ => hc.thread_covered body x u) ⟨t,?_,hlt⟩
  have hpos : 0 < (events t c.state.history).countP (A.earns x) := by omega
  obtain ⟨⟨o,r⟩,he,-⟩ := List.countP_pos_iff.mp hpos
  obtain ⟨q,hm⟩ := mem_events.mp he
  obtain ⟨ht,hq⟩ := hr t q o r hm
  refine Finset.mem_filter.mpr ⟨ht,?_⟩
  cases hthread : c.threads t with
  | none => exact absurd rfl ((hc.history_thread t).1 hthread _ hm)
  | some y =>
    have hsame : q = y.1 := ((hc.history_thread t).2 y.1 y.2 hthread).2 q o r hm
    rw [hq,hsame]
    exact hon y.1 y.2 hthread

theorem Reach.balanced {init : σ → Prop} {c : Config Op Res ε Req ρ σ} (hc : S.Reach init c)
    (on : Req → Bool) {P P' : Event Op Res → Bool}
    (h : ∀ t, (events t c.state.history).countP P = (events t c.state.history).countP P') :
    c.state.history.countP (Action.meets on P) = c.state.history.countP (Action.meets on P') := by
  obtain ⟨threads,request,hr⟩ := hc.exists_threads
  rw [countP_eq_sum on _ hr,countP_eq_sum on _ hr]
  exact Finset.sum_congr rfl fun t _ => h t

end System

end Interleaving
end CoLinkServer
