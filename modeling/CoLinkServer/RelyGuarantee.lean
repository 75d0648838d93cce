import CoLinkServer.Interleaving

/-! Rely-guarantee rules for interleaved programs. Each thread is verified alone, against
what the other threads guarantee; `Sound.reach` puts the threads together. Assertions are
predicates on a state, the record of the run included, so a fact about the past is one that
no later step can take away. -/
namespace CoLinkServer
namespace Interleaving

open Relation

variable {Op : Type} {Res : Op → Type} {ε Req ρ σ α β : Type}

/-- `known` holds of every reachable state and is proved elsewhere, `inv` is to be proved.
`guar t q` is what the steps of thread `t` serving `q` guarantee, `quiet` what the start of
a request and a step of the environment guarantee. -/
structure Rules (Op : Type) (Res : Op → Type) (Req σ : Type) where
  known : State Op Res Req σ → Prop
  inv : State Op Res Req σ → Prop
  guar : ℕ → Req → State Op Res Req σ → State Op Res Req σ → Prop
  quiet : State Op Res Req σ → State Op Res Req σ → Prop

namespace Rules

variable (R : Rules Op Res Req σ) (S : System Op Res ε Req ρ σ)

def Holds (s : State Op Res Req σ) : Prop := R.known s ∧ R.inv s

/-- A step that thread `t` may observe between two of its own. -/
def Other (t : ℕ) (s s' : State Op Res Req σ) : Prop :=
  R.Holds s ∧ R.Holds s' ∧ ((∃ t' q, t' ≠ t ∧ R.guar t' q s s') ∨ R.quiet s s')

def Stable (t : ℕ) (P : State Op Res Req σ → Prop) : Prop := ∀ s s', R.Other t s s' → P s → P s'

/-- From `s`, whatever the others do, thread `t` keeps the invariant and its guarantee at
each operation of the program, and ends it with an outcome that satisfies `Q`. -/
def wp (t : ℕ) (q : Req) : Prog Op Res ε α → (Except ε α → State Op Res Req σ → Prop) →
    State Op Res Req σ → Prop
  | .ret a, Q, s => R.Holds s → Q (.ok a) s
  | .fail e, Q, s => R.Holds s → Q (.error e) s
  | .call o k, Q, s => ∀ s₁, ReflTransGen (R.Other t) s s₁ → R.Holds s₁ → ∀ r x,
      S.exec t q o s₁ r x → R.known (s₁.push x (.op t q o r)) →
      R.inv (s₁.push x (.op t q o r)) ∧ R.guar t q s₁ (s₁.push x (.op t q o r)) ∧
      wp t q (k r) Q (s₁.push x (.op t q o r))

variable {R S} {t : ℕ} {q : Req}

theorem Stable.const (p : Prop) : R.Stable t fun _ => p := fun _ _ _ hp => hp

theorem Stable.rtc {P : State Op Res Req σ → Prop} (h : R.Stable t P)
    {s s' : State Op Res Req σ} (o : ReflTransGen (R.Other t) s s') (hp : P s) : P s' := by
  induction o with
  | refl => exact hp
  | tail _ o ih => exact h _ _ o ih

theorem wp_of_holds {p : Prog Op Res ε α} {Q : Except ε α → State Op Res Req σ → Prop}
    {s : State Op Res Req σ} (h : R.Holds s → R.wp S t q p Q s) : R.wp S t q p Q s := by
  cases p with
  | ret a => exact fun hs => h hs hs
  | fail e => exact fun hs => h hs hs
  | call o k =>
    intro s₁ hr hs₁
    rcases hr.cases_head with rfl | ⟨s₂,ho,-⟩
    · exact h hs₁ _ hr hs₁
    · exact h ho.1 _ hr hs₁

theorem wp_mono {p : Prog Op Res ε α} {Q Q' : Except ε α → State Op Res Req σ → Prop}
    {s : State Op Res Req σ} (h : R.wp S t q p Q s) (hq : ∀ r s, R.Holds s → Q r s → Q' r s) :
    R.wp S t q p Q' s := by
  induction p generalizing s with
  | ret a => exact fun hs => hq _ _ hs (h hs)
  | fail e => exact fun hs => hq _ _ hs (h hs)
  | call o k ih =>
    intro s₁ hr hs₁ r x he hk
    obtain ⟨hi,hg,hw⟩ := h s₁ hr hs₁ r x he hk
    exact ⟨hi,hg,ih r hw⟩

theorem wp_bind {p : Prog Op Res ε α} {f : α → Prog Op Res ε β}
    {Q : Except ε β → State Op Res Req σ → Prop} {s : State Op Res Req σ}
    (h : R.wp S t q p (fun r s => match r with
      | .ok a => R.wp S t q (f a) Q s
      | .error e => Q (.error e) s) s) : R.wp S t q (p >>= f) Q s := by
  induction p generalizing s with
  | ret a => exact wp_of_holds h
  | fail e => exact h
  | call o k ih =>
    intro s₁ hr hs₁ r x he hk
    obtain ⟨hi,hg,hw⟩ := h s₁ hr hs₁ r x he hk
    exact ⟨hi,hg,ih r hw⟩

theorem wp_attempt {p : Prog Op Res ε α} {Q : Except ε (Except ε α) → State Op Res Req σ → Prop}
    {s : State Op Res Req σ} (h : R.wp S t q p (fun r => Q (.ok r)) s) :
    R.wp S t q p.attempt Q s := by
  induction p generalizing s with
  | ret a => exact h
  | fail e => exact h
  | call o k ih =>
    intro s₁ hr hs₁ r x he hk
    obtain ⟨hi,hg,hw⟩ := h s₁ hr hs₁ r x he hk
    exact ⟨hi,hg,ih r hw⟩

theorem wp_ofExcept {r : Except ε α} {Q : Except ε α → State Op Res Req σ → Prop}
    {s : State Op Res Req σ} (h : R.Holds s → Q r s) :
    R.wp S t q (Prog.ofExcept r : Prog Op Res ε α) Q s := by
  cases r <;> exact h

/-- The assertion before an operation must survive the others; what the operation itself
does is then computed from a single state. -/
theorem wp_call {o : Op} {k : Res o → Prog Op Res ε α}
    {Q : Except ε α → State Op Res Req σ → Prop} {s : State Op Res Req σ}
    {P : State Op Res Req σ → Prop} (stable : R.Stable t P) (hp : P s)
    (h : ∀ s, R.Holds s → P s → ∀ r x, S.exec t q o s r x →
      R.known (s.push x (.op t q o r)) →
      R.inv (s.push x (.op t q o r)) ∧ R.guar t q s (s.push x (.op t q o r)) ∧
      R.wp S t q (k r) Q (s.push x (.op t q o r))) :
    R.wp S t q (.call o k) Q s :=
  fun s₁ hr hs₁ r x he hk => h s₁ hs₁ (stable.rtc hr hp) r x he hk

theorem wp_all {φ : Op → Prop} {p : Prog Op Res ε α} (hφ : p.All φ)
    {P : State Op Res Req σ → Prop} (stable : R.Stable t P)
    (step : ∀ o, φ o → ∀ s, R.Holds s → P s → ∀ r x, S.exec t q o s r x →
      R.known (s.push x (.op t q o r)) →
      R.inv (s.push x (.op t q o r)) ∧ R.guar t q s (s.push x (.op t q o r)) ∧
      P (s.push x (.op t q o r)))
    {s : State Op Res Req σ} (hp : P s) : R.wp S t q p (fun _ => P) s := by
  induction p generalizing s with
  | ret a => exact fun _ => hp
  | fail e => exact fun _ => hp
  | call o k ih =>
    refine wp_call stable hp fun s hs hp r x he hk => ?_
    obtain ⟨hi,hg,hp⟩ := step o hφ.1 s hs hp r x he hk
    exact ⟨hi,hg,ih r (hφ.2 r) hp⟩

theorem wp_rtc {p : Prog Op Res ε α} {Q : Except ε α → State Op Res Req σ → Prop}
    (hQ : ∀ r, R.Stable t (Q r)) {s s' : State Op Res Req σ} (o : R.Other t s s')
    (h : R.wp S t q p Q s) : R.wp S t q p Q s' := by
  cases p with
  | ret a => exact fun _ => hQ _ s s' o (h o.1)
  | fail e => exact fun _ => hQ _ s s' o (h o.1)
  | call op k => exact fun s₁ hr => h s₁ (hr.head o)

end Rules

/-- What has to be proved of a system, one request at a time. -/
structure Sound (R : Rules Op Res Req σ) (S : System Op Res ε Req ρ σ) (init : σ → Prop)
    (post : ℕ → Req → Except ε ρ → State Op Res Req σ → Prop) : Prop where
  known : ∀ c, S.Reach init c → R.known c.state
  init : ∀ x, init x → R.inv ⟨x,[]⟩
  start : ∀ t q s x, R.Holds s → (∀ a ∈ s.history, a.thread ≠ some t) → S.start t q s x →
    R.known (s.push x (.start t q)) →
    R.inv (s.push x (.start t q)) ∧ R.quiet s (s.push x (.start t q)) ∧
    R.wp S t q (S.body q) (post t q) (s.push x (.start t q))
  env : ∀ s x, R.Holds s → S.env s x → R.known (s.push x .env) →
    R.inv (s.push x .env) ∧ R.quiet s (s.push x .env)
  post : ∀ t q r, R.Stable t (post t q r)

namespace Sound

variable {R : Rules Op Res Req σ} {S : System Op Res ε Req ρ σ} {init : σ → Prop}
  {post : ℕ → Req → Except ε ρ → State Op Res Req σ → Prop}

theorem others {t : ℕ} {q : Req} {p : Prog Op Res ε ρ} (h : Sound R S init post)
    {s s' : State Op Res Req σ} (o : R.Other t s s') (hw : R.wp S t q p (post t q) s) :
    R.wp S t q p (post t q) s' :=
  Rules.wp_rtc (h.post t q) o hw

/-- Every reachable state satisfies the invariant, and every thread is still on a path that
keeps it. -/
theorem reach (h : Sound R S init post) {c : Config Op Res ε Req ρ σ} (hc : S.Reach init c) :
    R.inv c.state ∧
      ∀ t q p, c.threads t = some (q,p) → R.wp S t q p (post t q) c.state := by
  induction hc with
  | init hx => exact ⟨h.init _ hx,by simp⟩
  | @step c c' a hc s ih =>
    have hs : R.Holds c.state := ⟨h.known _ hc,ih.1⟩
    have hk : R.known c'.state := h.known _ (hc.step s)
    cases s with
    | @start u q x fresh begins =>
      obtain ⟨hi,hq,hw⟩ := h.start u q c.state x hs ((hc.history_thread u).1 fresh) begins hk
      refine ⟨hi,fun t q' p ht => ?_⟩
      by_cases hu : t = u
      · subst hu
        obtain ⟨rfl,rfl⟩ : q = q' ∧ S.body q = p := by simpa using ht
        exact hw
      · exact h.others ⟨hs,⟨hk,hi⟩,.inr hq⟩ (ih.2 t q' p (by simpa [hu] using ht))
    | @op u q o k r x runs does =>
      obtain ⟨hi,hg,hw⟩ := ih.2 u q _ runs _ .refl hs r x does hk
      refine ⟨hi,fun t q' p ht => ?_⟩
      by_cases hu : t = u
      · subst hu
        obtain ⟨rfl,rfl⟩ : q = q' ∧ k r = p := by simpa using ht
        exact hw
      · exact h.others ⟨hs,⟨hk,hi⟩,.inl ⟨u,q,Ne.symm hu,hg⟩⟩ (ih.2 t q' p (by simpa [hu] using ht))
    | env moves =>
      obtain ⟨hi,hq⟩ := h.env c.state _ hs moves hk
      exact ⟨hi,fun t q p ht => h.others ⟨hs,⟨hk,hi⟩,.inr hq⟩ (ih.2 t q p ht)⟩

theorem guar (h : Sound R S init post) {c c' : Config Op Res ε Req ρ σ} (hc : S.Reach init c)
    {t : ℕ} {q : Req} {o : Op} {r : Res o} (s : S.Step c (.op t q o r) c') :
    R.guar t q c.state c'.state := by
  have hk : R.known c'.state := h.known _ (hc.step s)
  cases s with
  | op runs does => exact ((h.reach hc).2 t q _ runs _ .refl ⟨h.known _ hc,(h.reach hc).1⟩ r _ does hk).2.1

end Sound

end Interleaving
end CoLinkServer
