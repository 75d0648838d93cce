import CoLinkServer.ThreadTraces

/-! Programs that run alone. A machine answers every operation and says what it becomes, so a
program has one outcome. -/
namespace CoLinkServer
namespace Interleaving

variable {Op : Type} {Res : Op → Type} {ε σ α β : Type}

abbrev Machine (Op : Type) (Res : Op → Type) (σ : Type) : Type := (o : Op) → σ → Res o × σ

/-- What a program ends with; its events are recorded newest first. -/
structure Ending (Op : Type) (Res : Op → Type) (ε α σ : Type) where
  result : Except ε α
  state : σ
  events : List (Event Op Res)

namespace Prog

variable (f : Machine Op Res σ)

def eval : Prog Op Res ε α → σ → List (Event Op Res) → Ending Op Res ε α σ
  | .ret a,x,h => ⟨.ok a,x,h⟩
  | .fail e,x,h => ⟨.error e,x,h⟩
  | .call o k,x,h => (k (f o x).1).eval (f o x).2 (⟨o,(f o x).1⟩ :: h)

variable {f} {x : σ} {h : List (Event Op Res)}

@[simp] theorem eval_ret (a : α) : (ret a : Prog Op Res ε α).eval f x h = ⟨.ok a,x,h⟩ := rfl
@[simp] theorem eval_fail (e : ε) : (fail e : Prog Op Res ε α).eval f x h = ⟨.error e,x,h⟩ := rfl
@[simp] theorem eval_call (o : Op) (k : Res o → Prog Op Res ε α) : (call o k).eval f x h =
    (k (f o x).1).eval f (f o x).2 (⟨o,(f o x).1⟩ :: h) := rfl
@[simp] theorem eval_ofExcept (r : Except ε α) :
    (ofExcept r : Prog Op Res ε α).eval f x h = ⟨r,x,h⟩ := by cases r <;> rfl

theorem eval_bind_ok {p : Prog Op Res ε α} {a : α} (hp : (p.eval f x h).result = .ok a)
    (g : α → Prog Op Res ε β) :
    (p >>= g).eval f x h = (g a).eval f (p.eval f x h).state (p.eval f x h).events := by
  induction p generalizing x h with
  | ret b =>
    obtain rfl := Except.ok.inj hp
    rfl
  | fail e => cases hp
  | call o k ih => exact ih _ hp

theorem eval_bind_error {p : Prog Op Res ε α} {e : ε} (hp : (p.eval f x h).result = .error e)
    (g : α → Prog Op Res ε β) :
    (p >>= g).eval f x h = ⟨.error e,(p.eval f x h).state,(p.eval f x h).events⟩ := by
  induction p generalizing x h with
  | ret b => cases hp
  | fail e' =>
    obtain rfl := Except.error.inj hp
    rfl
  | call o k ih => exact ih _ hp

theorem eval_bind_eq_ok {p : Prog Op Res ε α} {g : α → Prog Op Res ε β} {b : β} {x' : σ}
    {h' : List (Event Op Res)} (hp : (p >>= g).eval f x h = ⟨.ok b,x',h'⟩) :
    ∃ a x₁ h₁, p.eval f x h = ⟨.ok a,x₁,h₁⟩ ∧ (g a).eval f x₁ h₁ = ⟨.ok b,x',h'⟩ := by
  cases hr : (p.eval f x h).result with
  | ok a =>
    rw [eval_bind_ok hr] at hp
    exact ⟨a,_,_,by rw [← hr],hp⟩
  | error e =>
    rw [eval_bind_error hr] at hp
    cases hp

theorem eval_bind_ret (p : Prog Op Res ε α) (g : α → β) :
    (p >>= fun a => ret (g a)).eval f x h =
      ⟨(p.eval f x h).result.map g,(p.eval f x h).state,(p.eval f x h).events⟩ := by
  induction p generalizing x h with
  | ret a => rfl
  | fail e => rfl
  | call o k ih => exact ih _

@[simp] theorem eval_attempt (p : Prog Op Res ε α) : p.attempt.eval f x h =
    ⟨.ok (p.eval f x h).result,(p.eval f x h).state,(p.eval f x h).events⟩ := by
  induction p generalizing x h with
  | ret a => rfl
  | fail e => rfl
  | call o k ih => exact ih _

theorem eval_bracket (a b : Op) (p : Prog Op Res ε α) :
    (bracket (call a fun _ => .ret ()) (call b fun _ => .ret ()) p).eval f x h =
      let e := p.eval f (f a x).2 (⟨a,(f a x).1⟩ :: h)
      ⟨e.result,(f b e.state).2,⟨b,(f b e.state).1⟩ :: e.events⟩ := by
  have hattempt := eval_bind_ok (f := f) (x := (f a x).2) (h := ⟨a,(f a x).1⟩ :: h)
    (p := p.attempt) (a := (p.eval f (f a x).2 (⟨a,(f a x).1⟩ :: h)).result) (by rw [eval_attempt])
    fun r => (call b fun _ => .ret ()) >>= fun _ => ofExcept r
  simp only [bracket,call_bind,ret_bind,eval_call] at hattempt ⊢
  rw [hattempt,eval_attempt,eval_ofExcept]

theorem Traced.eval {I : List (Event Op Res) → Prop} {p : Prog Op Res ε α}
    {Q : Except ε α → List (Event Op Res) → Prop} (hp : p.Traced I h Q) :
    Q (p.eval f x h).result (p.eval f x h).events := by
  induction p generalizing x h with
  | ret a => exact hp
  | fail e => exact hp
  | call o k ih => exact ih _ (hp _).2

theorem All.events {φ : Op → Prop} {p : Prog Op Res ε α} (hp : p.All φ) (f : Machine Op Res σ)
    (x : σ) (h : List (Event Op Res)) :
    ∃ added, (p.eval f x h).events = added ++ h ∧ ∀ e ∈ added, φ e.1 :=
  Traced.eval (Traced.adds (I := fun _ => True) hp fun _ _ _ _ => trivial)

theorem All.eval {φ : Op → Prop} {p : Prog Op Res ε α} (hp : p.All φ) {P : σ → Prop}
    (step : ∀ o, φ o → ∀ x, P x → P (f o x).2) (hx : P x) : P (p.eval f x h).state := by
  induction p generalizing x h with
  | ret a => exact hx
  | fail e => exact hx
  | call o k ih => exact ih _ (hp.2 _) (step o hp.1 x hx)

/-- However the program ends, an assertion that held before holds again. -/
def Keeps (f : Machine Op Res σ) (P : σ → Prop) (p : Prog Op Res ε α) : Prop :=
  ∀ x h, P x → P (p.eval f x h).state

section Keeps

variable {P : σ → Prop} {p : Prog Op Res ε α}

theorem Keeps.after {g : α → Prog Op Res ε β} (hp : P (p.eval f x h).state)
    (hg : ∀ a, (g a).Keeps f P) : P ((p >>= g).eval f x h).state := by
  cases hr : (p.eval f x h).result with
  | ok a =>
    rw [eval_bind_ok hr]
    exact hg a _ _ hp
  | error e =>
    rw [eval_bind_error hr]
    exact hp

theorem Keeps.bind {g : α → Prog Op Res ε β} (hp : p.Keeps f P) (hg : ∀ a, (g a).Keeps f P) :
    (p >>= g).Keeps f P := fun x h hx => after (hp x h hx) hg

theorem Keeps.foldlM {ι : Type} {g : α → ι → Prog Op Res ε α} (is : List ι)
    (hg : ∀ a, ∀ i ∈ is, (g a i).Keeps f P) (a : α) : (is.foldlM g a).Keeps f P := by
  induction is generalizing a with
  | nil => exact fun _ _ hx => hx
  | cons i is ih =>
    rw [List.foldlM_cons]
    exact (hg a i (by simp)).bind fun b => ih (fun c j hj => hg c j (by simp [hj])) b

theorem closed_keeps (f : Machine Op Res σ) (P : σ → Prop) :
    Closed fun _ (p : Prog Op Res ε _) => p.Keeps f P where
  ret _ _ _ hx := hx
  fail _ _ _ hx := hx
  bind := Keeps.bind
  bracket := by
    intro α acquire release body ha hr hb
    refine ha.bind fun _ => Keeps.bind (fun x h hx => ?_) fun r => hr.bind fun _ x h hx => ?_
    · rw [eval_attempt]
      exact hb x h hx
    · rwa [eval_ofExcept]

theorem Keeps.of_all {φ : Op → Prop} (hp : p.All φ) (step : ∀ o, φ o → ∀ x, P x → P (f o x).2) :
    p.Keeps f P := fun _ _ hx => hp.eval step hx

end Keeps

/-- Every operation that the program comes to is enabled, and it ends in `Q`. -/
def Safe (f : Machine Op Res σ) (en : σ → Op → Prop) (Q : σ → Prop) : Prog Op Res ε α → σ → Prop
  | .ret _,x => Q x
  | .fail _,x => Q x
  | .call o k,x => en x o ∧ (k (f o x).1).Safe f en Q (f o x).2

section Safe

variable {en : σ → Op → Prop} {P Q : σ → Prop} {p : Prog Op Res ε α}

theorem Safe.bind {g : α → Prog Op Res ε β} (hp : p.Safe f en P x) (herror : ∀ y, P y → Q y)
    (hg : ∀ a y, P y → (g a).Safe f en Q y) : (p >>= g).Safe f en Q x := by
  induction p generalizing x with
  | ret a => exact hg a x hp
  | fail e => exact herror x hp
  | call o k ih => exact ⟨hp.1,ih _ hp.2⟩

theorem Safe.bracket {a b : Op} (ha : en x a) (hp : p.Safe f en P (f a x).2)
    (hb : ∀ y, P y → en y b ∧ Q (f b y).2) :
    (Prog.bracket (.call a fun _ => .ret ()) (.call b fun _ => .ret ()) p).Safe f en Q x := by
  refine ⟨ha,?_⟩
  have hall (r : Except ε α) (y : σ) (hy : P y) :
      ((call b fun _ => .ret () : Prog Op Res ε Unit) >>= fun _ => ofExcept r).Safe f en Q y :=
    ⟨(hb y hy).1,by cases r <;> exact (hb y hy).2⟩
  clear ha
  generalize (f a x).2 = y at hp
  induction p generalizing y with
  | ret a => exact hall _ _ hp
  | fail e => exact hall _ _ hp
  | call o k ih => exact ⟨hp.1,ih _ _ hp.2⟩

theorem Safe.of_all {φ : Op → Prop} (hp : p.All φ) (step : ∀ o, φ o → ∀ y, Q y → en y o ∧ Q (f o y).2)
    (hx : Q x) : p.Safe f en Q x := by
  induction p generalizing x with
  | ret a => exact hx
  | fail e => exact hx
  | call o k ih => exact ⟨(step o hp.1 x hx).1,ih _ (hp.2 _) (step o hp.1 x hx).2⟩

/-- A safe program that runs alone is one of the threads of a system, while the others wait. -/
theorem Safe.steps {Req ρ : Type} {S : System Op Res ε Req ρ σ} {p : Prog Op Res ε ρ}
    (hS : ∀ t q o s, en s.shared o → S.exec t q o s (f o s.shared).1 (f o s.shared).2)
    {c : Config Op Res ε Req ρ σ} {t : ℕ} {q : Req} (hp : p.Safe f en Q c.state.shared)
    (ht : c.threads t = some (q,p)) (h : List (Event Op Res)) : ∃ c', S.Steps c c' ∧
      c'.threads = Function.update c.threads t
        (some (q,.ofExcept (p.eval f c.state.shared h).result)) ∧
      c'.state.shared = (p.eval f c.state.shared h).state ∧ Q c'.state.shared ∧
      ∃ added, (p.eval f c.state.shared h).events = added ++ h ∧
        c'.state.history = added.map (fun e => .op t q e.1 e.2) ++ c.state.history := by
  induction p generalizing c h with
  | ret a => exact ⟨c,.refl,(Function.update_eq_self_iff.mpr ht.symm).symm,rfl,hp,[],rfl,rfl⟩
  | fail e => exact ⟨c,.refl,(Function.update_eq_self_iff.mpr ht.symm).symm,rfl,hp,[],rfl,rfl⟩
  | call o k ih =>
    have hstep := System.Step.op (S := S) ht (hS t q o c.state hp.1)
    have hnow : Function.update c.threads t (some (q,k (f o c.state.shared).1)) t =
        some (q,k (f o c.state.shared).1) := Function.update_self ..
    obtain ⟨c',hsteps,hthreads,hshared,hQ,added,hevents,hhistory⟩ :=
      ih (c := ⟨c.state.push (f o c.state.shared).2 (.op t q o (f o c.state.shared).1),
        Function.update c.threads t (some (q,k (f o c.state.shared).1))⟩) _ hp.2 hnow
        (⟨o,(f o c.state.shared).1⟩ :: h)
    refine ⟨c',.head ⟨_,hstep⟩ hsteps,?_,hshared,hQ,added ++ [⟨o,(f o c.state.shared).1⟩],?_,?_⟩
    · rw [hthreads]
      exact Function.update_idem ..
    · rw [List.append_assoc]
      exact hevents
    · rw [hhistory]
      simp

end Safe

end Prog

end Interleaving
end CoLinkServer
