import CoLinkServer.Credits

/-! Locks that any number of readers have at once, or one writer alone. As long as every thread gives
back only what it has taken, nobody has the lock for reading while somebody has it for writing. -/
namespace CoLinkServer
namespace Interleaving

variable {Op : Type} {Res : Op → Type} {ε Req ρ σ α β X : Type}

namespace Account

/-- Given the credit `c` the program never overdraws, and it leaves the credit `d` in either case. -/
def Moves (A : Account Op Res X) (c d : X → ℕ) (p : Prog Op Res ε α) : Prop :=
  ∀ (credit : X → ℕ) (h : List (Event Op Res)), A.Covers (credit + c) h →
    p.Traced (A.Covers credit) h fun _ => A.Covers (credit + d)

variable {A : Account Op Res X} {c d : X → ℕ}

theorem Covers.less {credit : X → ℕ} {h : List (Event Op Res)} (hc : A.Covers (credit + c) h) :
    A.Covers credit h := hc.mono fun _ => Nat.le_add_right _ _

theorem moves_call {o : Op} {k : Res o → α}
    (cost : ∀ r x, (A.spends x ⟨o,r⟩).toNat + d x ≤ (A.earns x ⟨o,r⟩).toNat + c x) :
    A.Moves c d (.call o fun r => .ret (k r) : Prog Op Res ε α) := by
  intro credit h hc r
  have hcover : A.Covers (credit + d) (⟨o,r⟩ :: h) := by
    intro x
    have hx := hc x
    have hcost := cost r x
    simp only [Pi.add_apply] at hx ⊢
    cases hs : A.spends x ⟨o,r⟩ <;> cases he : A.earns x ⟨o,r⟩ <;>
      simp only [hs,he,Bool.toNat_true,Bool.toNat_false] at hcost <;>
      simp only [List.countP_cons,hs,he,if_true,Bool.false_eq_true,if_false] <;> omega
  exact ⟨hcover.less,hcover⟩

theorem moves_of_all {φ : Op → Prop} (hφ : ∀ o, φ o → ∀ r x, A.spends x ⟨o,r⟩ = false)
    {p : Prog Op Res ε α} (hp : p.All φ) : A.Moves c c p := by
  intro credit h hc
  refine Prog.Traced.of_all hp (fun o ho r h' hh => ?_) hc
  have hcover : A.Covers (credit + c) (⟨o,r⟩ :: h') := by
    intro x
    have hx := hh x
    rw [List.countP_cons,List.countP_cons,hφ o ho r x]
    simp only [Bool.false_eq_true,if_false]
    omega
  exact ⟨hcover.less,hcover⟩

theorem Moves.bind {p : Prog Op Res ε α} {f : α → Prog Op Res ε β} (hp : A.Moves c c p)
    (hf : ∀ a, A.Moves c c (f a)) : A.Moves c c (p >>= f) := by
  intro credit h hc
  refine Prog.Traced.bind ((hp credit h hc).mono fun r h' hr => ?_)
  cases r with
  | ok a => exact hf a credit h' hr
  | error e => exact hr

theorem Moves.guard {acquire release : Prog Op Res ε Unit} {body : Prog Op Res ε α}
    (ha : A.Moves 0 c acquire) (hb : A.Moves c c body) (hr : A.Moves c 0 release) :
    A.Moves 0 0 (Prog.bracket acquire release body) := by
  intro credit h hc
  refine Prog.Traced.bind ((ha credit h hc).mono fun r h₁ h₁c => ?_)
  cases r with
  | error e => exact h₁c.less
  | ok _ =>
    refine Prog.Traced.bind (Prog.Traced.attempt ((hb credit h₁ h₁c).mono fun r h₂ h₂c => ?_))
    refine Prog.Traced.bind ((hr credit h₂ h₂c).mono fun r' h₃ h₃c => ?_)
    cases r' with
    | error e => exact h₃c
    | ok _ => exact Prog.Traced.ofExcept h₃c

theorem Moves.traced {p : Prog Op Res ε α} (hp : A.Moves 0 0 p) :
    p.Traced (A.Covers 0) [] fun _ _ => True :=
  (hp 0 [] fun _ => Nat.zero_le _).mono fun _ _ _ => trivial

end Account

/-- In how many hands a lock can be. -/
inductive Mode
  | shared | exclusive
deriving DecidableEq

/-- A lock in the state of a system: the account says which operations take it and which give it
back. -/
structure SharedLock (S : System Op Res ε Req ρ σ) (init : σ → Prop) where
  account : Account Op Res Mode
  readers : σ → ℕ
  writer : σ → Bool
  free : ∀ x, init x → readers x = 0 ∧ writer x = false
  shares : ∀ t q o s r y, S.exec t q o s r y → account.earns .shared ⟨o,r⟩ → writer s.shared = false
  excludes : ∀ t q o s r y, S.exec t q o s r y → account.earns .exclusive ⟨o,r⟩ →
    writer s.shared = false ∧ readers s.shared = 0
  reads : ∀ t q o s r y, S.exec t q o s r y → readers y = readers s.shared +
    (account.earns .shared ⟨o,r⟩).toNat - (account.spends .shared ⟨o,r⟩).toNat
  writes : ∀ t q o s r y, S.exec t q o s r y → (writer y).toNat = (writer s.shared).toNat +
    (account.earns .exclusive ⟨o,r⟩).toNat - (account.spends .exclusive ⟨o,r⟩).toNat
  apart : ∀ o r, account.earns .exclusive ⟨o,r⟩ → account.earns .shared ⟨o,r⟩ = false
  start : ∀ t q s y, S.start t q s y → readers y = readers s.shared ∧ writer y = writer s.shared
  env : ∀ s y, S.env s y → readers y = readers s.shared ∧ writer y = writer s.shared

namespace SharedLock

variable {S : System Op Res ε Req ρ σ} {init : σ → Prop} (L : SharedLock S init)

/-- The thread has the lock. -/
def Has (m : Mode) (h : List (Event Op Res)) : Prop :=
  h.countP (L.account.spends m) < h.countP (L.account.earns m)

/-- How often the lock has been taken, and given back, in a run. -/
def taken (m : Mode) (h : List (Action Op Res Req)) : ℕ :=
  h.countP (Action.meets (fun _ => true) (L.account.earns m))

def given (m : Mode) (h : List (Action Op Res Req)) : ℕ :=
  h.countP (Action.meets (fun _ => true) (L.account.spends m))

variable {L} {c : Config Op Res ε Req ρ σ}

theorem counts_op (P : Event Op Res → Bool) (t : ℕ) (q : Req) (o : Op) (r : Res o)
    (h : List (Action Op Res Req)) : (Action.op t q o r :: h).countP (Action.meets (fun _ => true) P) =
      h.countP (Action.meets (fun _ => true) P) + (P ⟨o,r⟩).toNat := by
  rw [List.countP_cons]
  cases hp : P ⟨o,r⟩ <;> simp [Action.meets,hp]

/-- The state counts who has the lock, and there is either a writer or there are readers. -/
theorem counted (hdisciplined : ∀ q, (S.body q).Traced (L.account.Covers 0) [] fun _ _ => True)
    (hc : S.Reach init c) :
    L.readers c.state.shared + L.given .shared c.state.history = L.taken .shared c.state.history ∧
    (L.writer c.state.shared).toNat + L.given .exclusive c.state.history =
      L.taken .exclusive c.state.history ∧
    (L.writer c.state.shared = true → L.readers c.state.shared = 0) := by
  induction hc with
  | init hx =>
    obtain ⟨hr,hw⟩ := L.free _ hx
    simp [hr,hw,taken,given]
  | @step c c' a hc s ih =>
    have hcovered (m : Mode) := (hc.step s).covered hdisciplined (fun _ => true) m
    obtain ⟨hreaders,hwriter,hapart⟩ := ih
    cases s with
    | start fresh begins =>
      obtain ⟨hr,hw⟩ := L.start _ _ _ _ begins
      simpa [hr,hw,taken,given,Action.meets] using ⟨hreaders,hwriter,hapart⟩
    | env moves =>
      obtain ⟨hr,hw⟩ := L.env _ _ moves
      simpa [hr,hw,taken,given,Action.meets] using ⟨hreaders,hwriter,hapart⟩
    | @op t q o k r x runs does =>
      simp only [State.push_history,counts_op] at hcovered
      simp only [State.push_shared,State.push_history,taken,given,counts_op] at hreaders hwriter ⊢
      have hs := hcovered .shared
      have he := hcovered .exclusive
      have hreads := L.reads t q o c.state r x does
      have hwrites := L.writes t q o c.state r x does
      refine ⟨by omega,by omega,fun hx => ?_⟩
      rw [hx,Bool.toNat_true] at hwrites
      cases hexclusive : L.account.earns .exclusive ⟨o,r⟩ with
      | true =>
        obtain ⟨-,hzero⟩ := L.excludes _ _ _ _ _ _ does hexclusive
        rw [hreads,hzero,L.apart o r hexclusive]
        simp
      | false =>
        have hw : L.writer c.state.shared = true := by
          cases hw : L.writer c.state.shared with
          | true => rfl
          | false => simp [hw,hexclusive] at hwrites
        have hshared : L.account.earns .shared ⟨o,r⟩ = false := by
          cases hshared : L.account.earns .shared ⟨o,r⟩ with
          | false => rfl
          | true => exact absurd (L.shares _ _ _ _ _ _ does hshared) (by simp [hw])
        rw [hreads,hapart hw,hshared]
        simp

theorem taken_of_has (hdisciplined : ∀ q, (S.body q).Traced (L.account.Covers 0) [] fun _ _ => True)
    (hc : S.Reach init c) {m : Mode} {t : ℕ} (ht : L.Has m (events t c.state.history)) :
    L.given m c.state.history < L.taken m c.state.history :=
  hc.covered_lt hdisciplined (fun _ => true) m (fun _ _ _ => rfl) ht

theorem exclusive (hdisciplined : ∀ q, (S.body q).Traced (L.account.Covers 0) [] fun _ _ => True)
    (hc : S.Reach init c) {t t' : ℕ} (ht : L.Has .shared (events t c.state.history))
    (ht' : L.Has .exclusive (events t' c.state.history)) : False := by
  obtain ⟨hreaders,hwriter,hapart⟩ := counted hdisciplined hc
  have hread := taken_of_has hdisciplined hc ht
  have hwrite := taken_of_has hdisciplined hc ht'
  cases hw : L.writer c.state.shared with
  | true =>
    have hzero := hapart hw
    omega
  | false =>
    rw [hw,Bool.toNat_false] at hwriter
    omega

end SharedLock
end Interleaving
end CoLinkServer
