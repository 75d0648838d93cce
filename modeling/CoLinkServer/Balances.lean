import CoLinkServer.Credits

/-! What threads spend, when the price of an event may depend on what the thread has done before. If no
program ever costs anything on balance, then neither do all the threads of a run together. -/
namespace CoLinkServer
namespace Interleaving

variable {Op : Type} {Res : Op → Type} {ε Req ρ σ α β : Type}

/-- The price of an event of a thread with this past; a negative one is an income. -/
abbrev Price (Op : Type) (Res : Op → Type) : Type := Event Op Res → List (Event Op Res) → ℤ

/-- What all events of a thread have cost. -/
def spent (cost : Price Op Res) : List (Event Op Res) → ℤ
  | [] => 0
  | e :: h => spent cost h + cost e h

namespace Prog

def Returns (P : α → Prop) : Prog Op Res ε α → Prop
  | .ret a => P a
  | .fail _ => True
  | .call _ k => ∀ r, (k r).Returns P

theorem Returns.bind {P : α → Prop} {P' : β → Prop} {p : Prog Op Res ε α} {f : α → Prog Op Res ε β}
    (hp : p.Returns P) (hf : ∀ a, P a → (f a).Returns P') : (p >>= f).Returns P' := by
  induction p with
  | ret a => exact hf a hp
  | fail e => trivial
  | call o k ih => exact fun r => ih r (hp r)

theorem returns_of_forall {P : α → Prop} (hP : ∀ a, P a) (p : Prog Op Res ε α) : p.Returns P := by
  induction p with
  | ret a => exact hP a
  | fail e => trivial
  | call o k ih => exact ih

theorem Returns.foldlM {ι : Type} {P : α → Prop} {f : α → ι → Prog Op Res ε α} (is : List ι)
    (hf : ∀ a i, P a → (f a i).Returns P) {a : α} (ha : P a) : (is.foldlM f a).Returns P := by
  induction is generalizing a with
  | nil => exact ha
  | cons i is ih =>
    rw [List.foldlM_cons]
    exact (hf a i ha).bind fun b hb => ih hb

theorem Traced.returns {I : List (Event Op Res) → Prop} {P : α → Prop} {p : Prog Op Res ε α}
    {h : List (Event Op Res)} {Q : Except ε α → List (Event Op Res) → Prop} (hp : p.Traced I h Q)
    (hr : p.Returns P) : p.Traced I h fun r h => Q r h ∧ ∀ a, r = .ok a → P a := by
  induction p generalizing h with
  | ret a => exact ⟨hp,fun b hb => Except.ok.inj hb ▸ hr⟩
  | fail e => exact ⟨hp,nofun⟩
  | call o k ih => exact fun r => ⟨(hp r).1,ih r (hp r).2 (hr r)⟩

/-- On no path does the program ever cost more than `n`; when it succeeds it has cost at most `d`. -/
def Costs (cost : Price Op Res) (n d : ℤ) (p : Prog Op Res ε α) : Prop := ∀ h,
  p.Traced (fun h' => spent cost h' ≤ spent cost h + n) h (Ends
    (fun _ h' => spent cost h' ≤ spent cost h + d) (fun h' => spent cost h' ≤ spent cost h + n))

variable {cost : Price Op Res} {n d n' d' m : ℤ} {p : Prog Op Res ε α}

theorem costs_ret (a : α) : (Prog.ret a : Prog Op Res ε α).Costs cost n 0 := fun h => by
  simp [Traced,Ends]

theorem costs_fail (e : ε) (hn : 0 ≤ n) : (Prog.fail e : Prog Op Res ε α).Costs cost n d := fun h => by
  simp [Traced,Ends,hn]

theorem Costs.mono (hp : p.Costs cost n d) (hn : n ≤ n') (hd : d ≤ d') : p.Costs cost n' d' := by
  intro h
  refine ((hp h).weaken fun h' hh => by omega).mono fun r h' hr => ?_
  cases r with
  | ok a => exact le_trans hr (by omega)
  | error e => exact le_trans hr (by omega)

theorem costs_call {o : Op} {k : Res o → Prog Op Res ε α} (ho : ∀ r h, cost ⟨o,r⟩ h ≤ d)
    (hk : ∀ r, (k r).Costs cost n' d') (hd : d ≤ m) (hm : d + n' ≤ m) :
    (Prog.call o k).Costs cost m (d + d') := by
  intro h r
  have hcost := ho r h
  have hspent : spent cost (⟨o,r⟩ :: h) = spent cost h + cost ⟨o,r⟩ h := rfl
  refine ⟨by omega,((hk r _).weaken fun h' hh => by omega).mono fun w h' hw => ?_⟩
  cases w with
  | ok a =>
    have hw' : spent cost h' ≤ spent cost (⟨o,r⟩ :: h) + d' := hw
    show spent cost h' ≤ _
    omega
  | error e =>
    have hw' : spent cost h' ≤ spent cost (⟨o,r⟩ :: h) + n' := hw
    show spent cost h' ≤ _
    omega

theorem Costs.bindOf {P : α → Prop} {f : α → Prog Op Res ε β} (hp : p.Costs cost n d)
    (hr : p.Returns P) (hf : ∀ a, P a → (f a).Costs cost n' d') (hn : n ≤ m) (hm : d + n' ≤ m) :
    (p >>= f).Costs cost m (d + d') := by
  intro h
  refine Traced.bind ((((hp h).returns hr).weaken fun h' hh => by omega).mono fun r h₁ hq => ?_)
  obtain ⟨hr₁,hP⟩ := hq
  cases r with
  | error e => exact le_trans hr₁ (by omega)
  | ok a =>
    have hspent : spent cost h₁ ≤ spent cost h + d := hr₁
    refine ((hf a (hP a rfl) h₁).weaken fun h' hh => by omega).mono fun r' h' hr' => ?_
    cases r' with
    | ok b => exact le_trans (b := spent cost h₁ + d') hr' (by omega)
    | error e => exact le_trans (b := spent cost h₁ + n') hr' (by omega)

theorem Costs.bind {f : α → Prog Op Res ε β} (hp : p.Costs cost n d)
    (hf : ∀ a, (f a).Costs cost n' d') (hn : n ≤ m) (hm : d + n' ≤ m) :
    (p >>= f).Costs cost m (d + d') :=
  hp.bindOf (returns_of_forall (fun _ => trivial) p) (fun a _ => hf a) hn hm

theorem Costs.seqOf {P : α → Prop} {f : α → Prog Op Res ε β} (hp : p.Costs cost 0 0)
    (hr : p.Returns P) (hf : ∀ a, P a → (f a).Costs cost n d) (hn : 0 ≤ n) :
    (p >>= f).Costs cost n d := by
  have hh := hp.bindOf hr hf hn (le_of_eq (zero_add n))
  rwa [zero_add] at hh

theorem Costs.seq {f : α → Prog Op Res ε β} (hp : p.Costs cost 0 0) (hf : ∀ a, (f a).Costs cost n d)
    (hn : 0 ≤ n) : (p >>= f).Costs cost n d :=
  hp.seqOf (returns_of_forall (fun _ => trivial) p) (fun a _ => hf a) hn

theorem Costs.map (hp : p.Costs cost n d) (g : α → β) : (p >>= fun a => .ret (g a)).Costs cost n d := by
  have hh := hp.bind (fun a => costs_ret (n := n - d) (g a)) le_rfl (by omega)
  rwa [add_zero] at hh

theorem costs_of_all {φ : Op → Prop} (hφ : ∀ o, φ o → ∀ r h, cost ⟨o,r⟩ h ≤ 0) (hp : p.All φ) :
    p.Costs cost 0 0 := by
  induction p with
  | ret a => exact costs_ret a
  | fail e => exact costs_fail e le_rfl
  | call o k ih =>
    have hh : (Prog.call o k).Costs cost 0 (0 + 0) :=
      costs_call (hφ o hp.1) (fun r => ih r (hp.2 r)) le_rfl le_rfl
    rwa [zero_add] at hh

theorem Costs.bracket {acquire release : Prog Op Res ε Unit} {body : Prog Op Res ε α}
    (ha : acquire.Costs cost 0 0) (hr : release.Costs cost 0 0) (hb : body.Costs cost n d)
    (hn : 0 ≤ n) (hd : d ≤ n) : (Prog.bracket acquire release body).Costs cost n d := by
  refine ha.seq (fun _ h => ?_) hn
  refine Traced.bind (Traced.attempt ((hb h).mono fun r h₁ hr₁ => ?_))
  obtain ⟨b,hb₁,hb₂,hfin⟩ : ∃ b, spent cost h₁ ≤ spent cost h + b ∧ b ≤ n ∧
      ∀ h', spent cost h' ≤ spent cost h + b → Ends (fun _ h' => spent cost h' ≤ spent cost h + d)
        (fun h' => spent cost h' ≤ spent cost h + n) r h' := by
    cases r with
    | ok a => exact ⟨d,hr₁,hd,fun h' hh => hh⟩
    | error e => exact ⟨n,hr₁,le_rfl,fun h' hh => hh⟩
  refine Traced.bind (((hr h₁).weaken fun h' hh => by omega).mono fun w h₂ hw => ?_)
  cases w with
  | ok u =>
    have hw' : spent cost h₂ ≤ spent cost h₁ + 0 := hw
    exact Traced.ofExcept (hfin h₂ (by omega))
  | error e =>
    have hw' : spent cost h₂ ≤ spent cost h₁ + 0 := hw
    show spent cost h₂ ≤ spent cost h + n
    omega

theorem Costs.attempt (hp : p.Costs cost 0 0) : p.attempt.Costs cost 0 0 := fun h =>
  Traced.attempt ((hp h).mono fun r h' hr => by cases r <;> exact hr)

theorem costs_ofExcept (r : Except ε α) : (ofExcept r : Prog Op Res ε α).Costs cost 0 0 := by
  cases r with
  | ok a => exact costs_ret a
  | error e => exact costs_fail e le_rfl

theorem closed_costs (cost : Price Op Res) :
    Closed fun _ (p : Prog Op Res ε _) => p.Costs cost 0 0 where
  ret a := costs_ret a
  fail e := costs_fail e le_rfl
  bind hp hf := hp.seq hf le_rfl
  bracket ha hr hb := ha.bracket hr hb le_rfl le_rfl

end Prog

/-- What the threads that serve such requests have cost. -/
def spentOn (cost : Price Op Res) (on : Req → Bool) : List (Action Op Res Req) → ℤ
  | [] => 0
  | .op t q o r :: h => spentOn cost on h + if on q then cost ⟨o,r⟩ (events t h) else 0
  | _ :: h => spentOn cost on h

theorem spentOn_eq_sum {cost : Price Op Res} {request : ℕ → Option Req} {threads : Finset ℕ}
    (on : Req → Bool) {h : List (Action Op Res Req)}
    (hr : ∀ t q o r, .op t q o r ∈ h → t ∈ threads ∧ request t = some q) :
    spentOn cost on h = ∑ t ∈ threads with (request t).any on, spent cost (events t h) := by
  induction h with
  | nil => simp [spentOn,spent]
  | cons a h ih =>
    have hih := ih fun t q o r hm => hr t q o r (List.mem_cons_of_mem _ hm)
    cases a with
    | start u q => simpa [spentOn] using hih
    | env => simpa [spentOn] using hih
    | op u q o r =>
      obtain ⟨hu,hq⟩ := hr u q o r (List.mem_cons_self ..)
      have hone (t : ℕ) : spent cost (events t (.op u q o r :: h)) = spent cost (events t h) +
          if u = t then cost ⟨o,r⟩ (events t h) else 0 := by
        split_ifs with ht
        · subst ht
          rw [events_op_self]
          rfl
        · rw [events_op_of_ne ht,add_zero]
      have hmem : (u ∈ threads.filter fun t => (request t).any on) ↔ on q := by simp [hu,hq]
      rw [Finset.sum_congr rfl fun t _ => hone t,Finset.sum_add_distrib,Finset.sum_ite_eq,← hih]
      simp only [spentOn,hmem]

namespace System

variable {S : System Op Res ε Req ρ σ} {init : σ → Prop} {d : ℤ} {cost : Price Op Res}

theorem Reach.spent_nonpos (body : ∀ q, (S.body q).Costs cost 0 d) {c : Config Op Res ε Req ρ σ}
    (hc : S.Reach init c) {t : ℕ} {h : List (Event Op Res)} (hs : h <:+ events t c.state.history) :
    spent cost h ≤ 0 := by
  cases h with
  | nil => exact le_rfl
  | cons e past =>
    cases ht : c.threads t with
    | none =>
      rw [(hc.traced (fun q => body q []) t).1 ht] at hs
      exact absurd (List.suffix_nil.mp hs) (List.cons_ne_nil _ _)
    | some y =>
      have hcost := ((hc.traced (fun q => body q []) t).2 y.1 y.2 ht).2 e past hs
      simpa [spent] using hcost

theorem Reach.exists_sums {c : Config Op Res ε Req ρ σ} (hc : S.Reach init c) (on : Req → Bool) :
    ∃ T : Finset ℕ, (∀ cost : Price Op Res,
        spentOn cost on c.state.history = ∑ t ∈ T, spent cost (events t c.state.history)) ∧
      (∀ t ∈ T, ∀ q o r, .op t q o r ∈ c.state.history → on q) ∧
      ∀ t q o r, .op t q o r ∈ c.state.history → on q → t ∈ T := by
  obtain ⟨threads,request,hr⟩ := hc.exists_threads
  refine ⟨threads.filter fun t => (request t).any on,fun cost => spentOn_eq_sum on hr,
    fun t ht q o r hm => ?_,fun t q o r hm hon => ?_⟩
  · have hany := (Finset.mem_filter.mp ht).2
    rw [(hr t q o r hm).2] at hany
    exact hany
  · obtain ⟨hmem,hreq⟩ := hr t q o r hm
    exact Finset.mem_filter.mpr ⟨hmem,by rw [hreq]; exact hon⟩

theorem Reach.spentOn_le (body : ∀ q, (S.body q).Costs cost 0 d) {c : Config Op Res ε Req ρ σ}
    (hc : S.Reach init c) (on : Req → Bool) {A : Finset ℕ}
    (hA : ∀ t ∈ A, ∃ q o r, on q ∧ .op t q o r ∈ c.state.history) :
    spentOn cost on c.state.history ≤ ∑ t ∈ A, spent cost (events t c.state.history) := by
  obtain ⟨T,hsum,-,hmem⟩ := hc.exists_sums on
  have hsub : A ⊆ T := fun t ht => by
    obtain ⟨q,o,r,hon,hm⟩ := hA t ht
    exact hmem t q o r hm hon
  have hrest : ∑ t ∈ T \ A, spent cost (events t c.state.history) ≤ 0 :=
    Finset.sum_nonpos fun t _ => hc.spent_nonpos body List.suffix_rfl
  rw [hsum,← Finset.sum_sdiff hsub]
  omega

theorem Reach.spentOn_nonpos (body : ∀ q, (S.body q).Costs cost 0 d) {c : Config Op Res ε Req ρ σ}
    (hc : S.Reach init c) (on : Req → Bool) : spentOn cost on c.state.history ≤ 0 :=
  hc.spentOn_le body on fun t ht => absurd ht (Finset.notMem_empty t)

end System

end Interleaving
end CoLinkServer
