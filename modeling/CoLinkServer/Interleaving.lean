import Mathlib.Logic.Relation
import Mathlib.Logic.Function.Basic
import Mathlib.Data.Nat.Notation

/-! Programs built from atomic operations, and the interleavings of any number of them
over one shared state. Nothing here depends on what the operations are: a program is a
finite tree whose nodes are operations, a system says what one operation does to the
shared state, and a run lets the threads take turns between operations. -/
namespace CoLinkServer
namespace Interleaving

/-- `ret` and `fail` end a program; `call o k` performs `o` and continues with its result. -/
inductive Prog (Op : Type) (Res : Op → Type) (ε α : Type) : Type
  | ret (a : α)
  | fail (e : ε)
  | call (o : Op) (k : Res o → Prog Op Res ε α)

namespace Prog

variable {Op : Type} {Res : Op → Type} {ε α β γ : Type}

def bind : Prog Op Res ε α → (α → Prog Op Res ε β) → Prog Op Res ε β
  | .ret a, f => f a
  | .fail e, _ => .fail e
  | .call o k, f => .call o fun r => (k r).bind f

instance : Monad (Prog Op Res ε) where
  pure := .ret
  bind := Prog.bind

@[simp] theorem pure_eq (a : α) : (pure a : Prog Op Res ε α) = .ret a := rfl
@[simp] theorem ret_bind (a : α) (f : α → Prog Op Res ε β) : (Prog.ret a >>= f) = f a := rfl
@[simp] theorem fail_bind (e : ε) (f : α → Prog Op Res ε β) :
    ((Prog.fail e : Prog Op Res ε α) >>= f) = .fail e := rfl
@[simp] theorem call_bind (o : Op) (k : Res o → Prog Op Res ε α) (f : α → Prog Op Res ε β) :
    (Prog.call o k >>= f) = .call o fun r => k r >>= f := rfl

theorem bind_ret (p : Prog Op Res ε α) : p >>= Prog.ret = p := by
  induction p with
  | ret a => rfl
  | fail e => rfl
  | call o k ih => simp only [call_bind,ih]

theorem bind_assoc (p : Prog Op Res ε α) (f : α → Prog Op Res ε β) (g : β → Prog Op Res ε γ) :
    p >>= f >>= g = p >>= fun a => f a >>= g := by
  induction p with
  | ret a => rfl
  | fail e => rfl
  | call o k ih => simp only [call_bind,ih]

/-- Run to the end and hand over the outcome, a failure included. -/
def attempt : Prog Op Res ε α → Prog Op Res ε (Except ε α)
  | .ret a => .ret (.ok a)
  | .fail e => .ret (.error e)
  | .call o k => .call o fun r => (k r).attempt

def ofExcept : Except ε α → Prog Op Res ε α
  | .ok a => .ret a
  | .error e => .fail e

/-- `release` also runs when `body` fails, like the destructor of a guard. -/
def bracket (acquire release : Prog Op Res ε Unit) (body : Prog Op Res ε α) : Prog Op Res ε α := do
  acquire
  let r ← body.attempt
  release
  ofExcept r

/-- Every operation the program can ever perform satisfies `φ`. -/
def All (φ : Op → Prop) : Prog Op Res ε α → Prop
  | .ret _ => True
  | .fail _ => True
  | .call o k => φ o ∧ ∀ r, (k r).All φ

@[simp] theorem all_ret (φ : Op → Prop) (a : α) : (Prog.ret a : Prog Op Res ε α).All φ := trivial
@[simp] theorem all_fail (φ : Op → Prop) (e : ε) : (Prog.fail e : Prog Op Res ε α).All φ := trivial
@[simp] theorem all_call (φ : Op → Prop) (o : Op) (k : Res o → Prog Op Res ε α) :
    (Prog.call o k).All φ ↔ φ o ∧ ∀ r, (k r).All φ := Iff.rfl

theorem All.bind {φ : Op → Prop} {p : Prog Op Res ε α} {f : α → Prog Op Res ε β}
    (hp : p.All φ) (hf : ∀ a, (f a).All φ) : (p >>= f).All φ := by
  induction p with
  | ret a => exact hf a
  | fail e => trivial
  | call o k ih => exact ⟨hp.1,fun r => ih r (hp.2 r)⟩

theorem All.attempt {φ : Op → Prop} {p : Prog Op Res ε α} (hp : p.All φ) : p.attempt.All φ := by
  induction p with
  | ret a => trivial
  | fail e => trivial
  | call o k ih => exact ⟨hp.1,fun r => ih r (hp.2 r)⟩

theorem All.ofExcept {φ : Op → Prop} (r : Except ε α) :
    (Prog.ofExcept r : Prog Op Res ε α).All φ := by
  cases r <;> trivial

theorem All.bracket {φ : Op → Prop} {acquire release : Prog Op Res ε Unit}
    {body : Prog Op Res ε α} (ha : acquire.All φ) (hr : release.All φ) (hb : body.All φ) :
    (Prog.bracket acquire release body).All φ :=
  ha.bind fun _ => hb.attempt.bind fun r => hr.bind fun _ => All.ofExcept r

theorem All.of_forall {φ : Op → Prop} (h : ∀ o, φ o) (p : Prog Op Res ε α) : p.All φ := by
  induction p with
  | ret a => trivial
  | fail e => trivial
  | call o k ih => exact ⟨h o,ih⟩

theorem All.mono {φ ψ : Op → Prop} (h : ∀ o, φ o → ψ o) {p : Prog Op Res ε α}
    (hp : p.All φ) : p.All ψ := by
  induction p with
  | ret a => trivial
  | fail e => trivial
  | call o k ih => exact ⟨h o hp.1,fun r => ih r (hp.2 r)⟩

theorem All.foldlM {φ : Op → Prop} {ι : Type} {f : α → ι → Prog Op Res ε α} (is : List ι)
    (hf : ∀ a, ∀ i ∈ is, (f a i).All φ) (a : α) : (is.foldlM f a).All φ := by
  induction is generalizing a with
  | nil => trivial
  | cons i is ih =>
    rw [List.foldlM_cons]
    exact (hf a i (by simp)).bind fun b => ih (fun c j hj => hf c j (by simp [hj])) b

/-- A property that programs inherit from their parts. -/
structure Closed (P : (α : Type) → Prog Op Res ε α → Prop) : Prop where
  ret : ∀ {α : Type} (a : α), P α (.ret a)
  fail : ∀ {α : Type} (e : ε), P α (.fail e)
  bind : ∀ {α β : Type} {p : Prog Op Res ε α} {f : α → Prog Op Res ε β}, P α p →
    (∀ a, P β (f a)) → P β (p >>= f)
  bracket : ∀ {α : Type} {acquire release : Prog Op Res ε Unit} {body : Prog Op Res ε α},
    P Unit acquire → P Unit release → P α body → P α (bracket acquire release body)

theorem closed_all (φ : Op → Prop) : Closed fun _ (p : Prog Op Res ε _) => p.All φ :=
  ⟨fun _ => trivial,fun _ => trivial,All.bind,All.bracket⟩

theorem Closed.foldlM {P : (α : Type) → Prog Op Res ε α → Prop} (hP : Closed P) {ι : Type}
    {f : α → ι → Prog Op Res ε α} (hf : ∀ a i, P α (f a i)) (is : List ι) (a : α) :
    P α (is.foldlM f a) := by
  induction is generalizing a with
  | nil => exact hP.ret a
  | cons i is ih =>
    rw [List.foldlM_cons]
    exact hP.bind (hf a i) ih

/-- The same program with operations that are among others, and errors that are. -/
def lift {Op' : Type} {Res' : Op' → Type} {ε' : Type} (f : Op → Op') (g : ∀ o, Res' (f o) → Res o)
    (e : ε → ε') : Prog Op Res ε α → Prog Op' Res' ε' α
  | .ret a => .ret a
  | .fail x => .fail (e x)
  | .call o k => .call (f o) fun r => (k (g o r)).lift f g e

theorem All.lift {Op' : Type} {Res' : Op' → Type} {ε' : Type} {f : Op → Op'}
    {g : ∀ o, Res' (f o) → Res o} {e : ε → ε'} {φ : Op' → Prop} {p : Prog Op Res ε α}
    (hp : p.All fun o => φ (f o)) : (p.lift f g e).All φ := by
  induction p with
  | ret a => trivial
  | fail x => trivial
  | call o k ih => exact ⟨hp.1,fun r => ih _ (hp.2 _)⟩

end Prog

/-- One entry of the record of a run. -/
inductive Action (Op : Type) (Res : Op → Type) (Req : Type) : Type
  | start (t : ℕ) (q : Req)
  | op (t : ℕ) (q : Req) (o : Op) (r : Res o)
  | env

variable {Op : Type} {Res : Op → Type} {ε Req ρ σ : Type}

def Action.thread : Action Op Res Req → Option ℕ
  | .start t _ => some t
  | .op t _ _ _ => some t
  | .env => none

/-- The shared state together with everything that has happened, newest first. -/
structure State (Op : Type) (Res : Op → Type) (Req σ : Type) where
  shared : σ
  history : List (Action Op Res Req)

def State.push (s : State Op Res Req σ) (x : σ) (a : Action Op Res Req) : State Op Res Req σ :=
  ⟨x,a :: s.history⟩

@[simp] theorem State.push_shared (s : State Op Res Req σ) (x : σ) (a : Action Op Res Req) :
    (s.push x a).shared = x := rfl
@[simp] theorem State.push_history (s : State Op Res Req σ) (x : σ) (a : Action Op Res Req) :
    (s.push x a).history = a :: s.history := rfl

/-- Every step of the record satisfies `φ`, together with what happened before it. -/
def Everywhere (φ : Action Op Res Req → List (Action Op Res Req) → Prop) :
    List (Action Op Res Req) → Prop
  | [] => True
  | a :: h => φ a h ∧ Everywhere φ h

instance Everywhere.decide (φ : Action Op Res Req → List (Action Op Res Req) → Prop)
    [∀ a h, Decidable (φ a h)] : ∀ h, Decidable (Everywhere φ h)
  | [] => isTrue trivial
  | a :: h => @instDecidableAnd _ _ (inferInstance : Decidable (φ a h)) (Everywhere.decide φ h)

theorem Everywhere.mono {φ ψ : Action Op Res Req → List (Action Op Res Req) → Prop}
    (hφ : ∀ a h, φ a h → ψ a h) {h : List (Action Op Res Req)} (he : Everywhere φ h) :
    Everywhere ψ h := by
  induction h with
  | nil => trivial
  | cons a h ih => exact ⟨hφ a h he.1,ih he.2⟩

theorem Everywhere.suffix {φ : Action Op Res Req → List (Action Op Res Req) → Prop}
    {h h' : List (Action Op Res Req)} (he : Everywhere φ h) (hs : h' <:+ h) : Everywhere φ h' := by
  induction h with
  | nil => rwa [List.suffix_nil.mp hs]
  | cons a h ih =>
    rcases List.suffix_cons_iff.mp hs with rfl | hs
    · exact he
    · exact ih he.2 hs

theorem Everywhere.of_step {φ : Action Op Res Req → List (Action Op Res Req) → Prop}
    {h : List (Action Op Res Req)}
    (step : ∀ a past, a :: past <:+ h → Everywhere φ past → φ a past) : Everywhere φ h := by
  induction h with
  | nil => trivial
  | cons a h ih =>
    have hh : Everywhere φ h := ih fun b past hs => step b past (hs.trans (List.suffix_cons _ _))
    exact ⟨step a h List.suffix_rfl hh,hh⟩

theorem everywhere_iff {φ : Action Op Res Req → List (Action Op Res Req) → Prop}
    {h : List (Action Op Res Req)} : Everywhere φ h ↔ ∀ a h', a :: h' <:+ h → φ a h' := by
  induction h with
  | nil => simp [Everywhere]
  | cons a h ih =>
    simp only [Everywhere,ih,List.suffix_cons_iff,List.cons.injEq]
    constructor
    · rintro ⟨ha,hh⟩ b h' (⟨rfl,rfl⟩ | hs)
      · exact ha
      · exact hh b h' hs
    · exact fun hh => ⟨hh a h (.inl ⟨rfl,rfl⟩),fun b h' hs => hh b h' (.inr hs)⟩

theorem suffix_of_mem {a : Action Op Res Req} {h : List (Action Op Res Req)} (ha : a ∈ h) :
    ∃ past, a :: past <:+ h := by
  obtain ⟨later,past,he⟩ := List.append_of_mem ha
  exact ⟨past,later,he.symm⟩

theorem earliest {p : Action Op Res Req → Prop} {h : List (Action Op Res Req)} (hh : ∃ x ∈ h, p x) :
    ∃ a past, a :: past <:+ h ∧ p a ∧ ∀ x ∈ past, ¬ p x := by
  induction h with
  | nil =>
    obtain ⟨x,hm,-⟩ := hh
    cases hm
  | cons b h ih =>
    by_cases hin : ∃ x ∈ h, p x
    · obtain ⟨a,past,hs,ha,hno⟩ := ih hin
      exact ⟨a,past,hs.trans (List.suffix_cons _ _),ha,hno⟩
    · obtain ⟨x,hm,hx⟩ := hh
      rcases List.mem_cons.mp hm with rfl | hm
      · exact ⟨x,h,List.suffix_rfl,hx,fun y hy hp => hin ⟨y,hy,hp⟩⟩
      · exact absurd ⟨x,hm,hx⟩ hin

theorem one_first {a b : Action Op Res Req} {past past' h : List (Action Op Res Req)}
    (hs : a :: past <:+ h) (hs' : b :: past' <:+ h) :
    a :: past = b :: past' ∨ a :: past <:+ past' ∨ b :: past' <:+ past := by
  rcases List.suffix_or_suffix_of_suffix hs hs' with hss | hss
  · exact (List.suffix_cons_iff.mp hss).imp_right .inl
  · rcases List.suffix_cons_iff.mp hss with he | hss
    · exact .inl he.symm
    · exact .inr (.inr hss)

theorem before_or_after {a b : Action Op Res Req} {h : List (Action Op Res Req)} (ha : a ∈ h)
    (hb : b ∈ h) : a = b ∨ (∃ past, a :: past <:+ h ∧ b ∈ past) ∨ ∃ past, b :: past <:+ h ∧ a ∈ past := by
  obtain ⟨past,hs⟩ := suffix_of_mem ha
  obtain ⟨past',hs'⟩ := suffix_of_mem hb
  rcases one_first hs hs' with he | hss | hss
  · exact .inl (List.cons.inj he).1
  · exact .inr (.inr ⟨past',hs',hss.subset (List.mem_cons_self ..)⟩)
  · exact .inr (.inl ⟨past,hs,hss.subset (List.mem_cons_self ..)⟩)

/-- `exec t q o s r y`: thread `t`, serving request `q`, performs `o` in state `s` with
result `r`, leaving `y`. An operation with no such `r` and `y` blocks. -/
structure System (Op : Type) (Res : Op → Type) (ε Req ρ σ : Type) where
  body : Req → Prog Op Res ε ρ
  exec : ℕ → Req → (o : Op) → State Op Res Req σ → Res o → σ → Prop
  start : ℕ → Req → State Op Res Req σ → σ → Prop
  env : State Op Res Req σ → σ → Prop

structure Config (Op : Type) (Res : Op → Type) (ε Req ρ σ : Type) where
  state : State Op Res Req σ
  threads : ℕ → Option (Req × Prog Op Res ε ρ)

namespace System

variable (S : System Op Res ε Req ρ σ)

inductive Step : Config Op Res ε Req ρ σ → Action Op Res Req → Config Op Res ε Req ρ σ → Prop
  | start {c : Config Op Res ε Req ρ σ} {t : ℕ} {q : Req} {x : σ} (fresh : c.threads t = none)
      (begins : S.start t q c.state x) :
      Step c (.start t q) ⟨c.state.push x (.start t q),
        Function.update c.threads t (some (q,S.body q))⟩
  | op {c : Config Op Res ε Req ρ σ} {t : ℕ} {q : Req} {o : Op} {k : Res o → Prog Op Res ε ρ}
      {r : Res o} {x : σ} (runs : c.threads t = some (q,.call o k))
      (does : S.exec t q o c.state r x) :
      Step c (.op t q o r) ⟨c.state.push x (.op t q o r),
        Function.update c.threads t (some (q,k r))⟩
  | env {c : Config Op Res ε Req ρ σ} {x : σ} (moves : S.env c.state x) :
      Step c .env ⟨c.state.push x .env,c.threads⟩

inductive Reach (init : σ → Prop) : Config Op Res ε Req ρ σ → Prop
  | init {x : σ} (h : init x) : Reach init ⟨⟨x,[]⟩,fun _ => none⟩
  | step {c c' : Config Op Res ε Req ρ σ} {a : Action Op Res Req} (h : Reach init c)
      (s : S.Step c a c') : Reach init c'

/-- The same system with its steps restricted by a condition on the step and on what has
happened before it. -/
def under (φ : Action Op Res Req → List (Action Op Res Req) → Prop) : System Op Res ε Req ρ σ where
  body := S.body
  exec t q o s r y := S.exec t q o s r y ∧ φ (.op t q o r) s.history
  start t q s y := S.start t q s y ∧ φ (.start t q) s.history
  env s y := S.env s y ∧ φ .env s.history

variable {S}

theorem Step.history {c c' : Config Op Res ε Req ρ σ} {a : Action Op Res Req} (h : S.Step c a c') :
    c'.state.history = a :: c.state.history := by
  cases h <;> rfl

theorem Reach.before {init : σ → Prop} {c : Config Op Res ε Req ρ σ} (h : S.Reach init c)
    {a : Action Op Res Req} {past : List (Action Op Res Req)} (hs : a :: past <:+ c.state.history) :
    ∃ c₀ c₁, S.Reach init c₀ ∧ c₀.state.history = past ∧ S.Step c₀ a c₁ ∧ c₁.state.history = a :: past := by
  induction h with
  | init _ => simp at hs
  | @step c c' b hc s ih =>
    rw [s.history] at hs
    rcases List.suffix_cons_iff.mp hs with he | hs
    · obtain ⟨rfl,rfl⟩ := List.cons.inj he
      exact ⟨c,c',hc,rfl,s,s.history⟩
    · exact ih hs

/-- Any number of steps. -/
abbrev Steps (S : System Op Res ε Req ρ σ) :
    Config Op Res ε Req ρ σ → Config Op Res ε Req ρ σ → Prop :=
  Relation.ReflTransGen fun c c' => ∃ a, S.Step c a c'

theorem Reach.passed {init : σ → Prop} {c : Config Op Res ε Req ρ σ} (h : S.Reach init c)
    {past : List (Action Op Res Req)} (hs : past <:+ c.state.history) :
    ∃ c', S.Reach init c' ∧ c'.state.history = past ∧ S.Steps c' c := by
  induction h with
  | init hx => exact ⟨_,.init hx,(List.suffix_nil.mp hs).symm,.refl⟩
  | @step c c' a hc s ih =>
    rw [s.history] at hs
    rcases List.suffix_cons_iff.mp hs with rfl | hs
    · exact ⟨c',hc.step s,s.history,.refl⟩
    · obtain ⟨c₀,hc₀,hh,hsteps⟩ := ih hs
      exact ⟨c₀,hc₀,hh,hsteps.tail ⟨a,s⟩⟩

theorem Reach.steps {init : σ → Prop} {c c' : Config Op Res ε Req ρ σ} (h : S.Reach init c)
    (hs : S.Steps c c') : S.Reach init c' := by
  induction hs with
  | refl => exact h
  | tail _ hs ih => exact ih.step hs.choose_spec

theorem Steps.history {c c' : Config Op Res ε Req ρ σ} (hs : S.Steps c c') :
    c.state.history <:+ c'.state.history := by
  induction hs with
  | refl => exact List.suffix_rfl
  | tail _ hs ih => exact ih.trans (hs.choose_spec.history ▸ List.suffix_cons _ _)

/-- A thread that has ended does nothing any more. -/
theorem Steps.ended {c c' : Config Op Res ε Req ρ σ} (hs : S.Steps c c') {t : ℕ} {q : Req}
    {r : Except ε ρ} (ht : c.threads t = some (q,.ofExcept r)) :
    c'.threads t = some (q,.ofExcept r) := by
  induction hs with
  | refl => exact ht
  | tail _ hs ih =>
    obtain ⟨a,hs⟩ := hs
    cases hs with
    | @start u q' x fresh begins =>
      have hne : t ≠ u := by
        rintro rfl
        rw [fresh] at ih
        cases ih
      simpa [hne] using ih
    | @op u q' o k r' x runs does =>
      have hne : t ≠ u := by
        rintro rfl
        rw [runs] at ih
        cases r <;> cases ih
      simpa [hne] using ih
    | env moves => exact ih

theorem Reach.under {init : σ → Prop} {φ : Action Op Res Req → List (Action Op Res Req) → Prop}
    {c : Config Op Res ε Req ρ σ} (h : S.Reach init c) (hφ : Everywhere φ c.state.history) :
    (S.under φ).Reach init c := by
  induction h with
  | init h => exact .init h
  | @step c c' a _ s ih =>
    rw [s.history] at hφ
    refine (ih hφ.2).step (a := a) ?_
    cases s with
    | start fresh begins => exact .start fresh ⟨begins,hφ.1⟩
    | op runs does => exact .op runs ⟨does,hφ.1⟩
    | env moves => exact .env ⟨moves,hφ.1⟩

/-- A thread that has not started has left no trace, and one that has always served the
same request. -/
theorem Reach.history_thread {init : σ → Prop} {c : Config Op Res ε Req ρ σ} (h : S.Reach init c)
    (t : ℕ) : (c.threads t = none → ∀ a ∈ c.state.history, a.thread ≠ some t) ∧
      ∀ q p, c.threads t = some (q,p) → Action.start t q ∈ c.state.history ∧
        ∀ q' o r, Action.op t q' o r ∈ c.state.history → q' = q := by
  induction h with
  | init _ => simp
  | step _ s ih =>
    cases s with
    | @start u q x fresh begins =>
      by_cases hu : t = u
      · subst hu
        refine ⟨by simp,fun q' p hq => ?_⟩
        obtain ⟨rfl,-⟩ : q = q' ∧ _ := by simpa using hq
        refine ⟨by simp,fun q' o r hm => ?_⟩
        rcases List.mem_cons.mp hm with hm | hm
        · cases hm
        · exact absurd rfl (ih.1 fresh _ hm)
      · refine ⟨fun ht a ha => ?_,fun q' p hq => ?_⟩
        · rcases List.mem_cons.mp ha with rfl | ha
          · exact fun he => hu (Option.some.inj he).symm
          · exact ih.1 (by simpa [hu] using ht) a ha
        · obtain ⟨hs,ho⟩ := ih.2 q' p (by simpa [hu] using hq)
          exact ⟨List.mem_cons_of_mem _ hs,fun q'' o r hm => ho q'' o r (by simpa using hm)⟩
    | @op u q o k r x runs does =>
      by_cases hu : t = u
      · subst hu
        refine ⟨by simp,fun q' p hq => ?_⟩
        obtain ⟨rfl,-⟩ : q = q' ∧ _ := by simpa using hq
        obtain ⟨hs,ho⟩ := ih.2 q _ runs
        refine ⟨List.mem_cons_of_mem _ hs,fun q' o' r' hm => ?_⟩
        rcases List.mem_cons.mp hm with hm | hm
        · exact (Action.op.inj hm).2.1
        · exact ho q' o' r' hm
      · refine ⟨fun ht a ha => ?_,fun q' p hq => ?_⟩
        · rcases List.mem_cons.mp ha with rfl | ha
          · exact fun he => hu (Option.some.inj he).symm
          · exact ih.1 (by simpa [hu] using ht) a ha
        · obtain ⟨hs,ho⟩ := ih.2 q' p (by simpa [hu] using hq)
          refine ⟨List.mem_cons_of_mem _ hs,fun q'' o' r' hm => ?_⟩
          rcases List.mem_cons.mp hm with hm | hm
          · exact absurd (Action.op.inj hm).1 hu
          · exact ho q'' o' r' hm
    | env moves =>
      refine ⟨fun ht a ha => ?_,fun q' p hq => ?_⟩
      · rcases List.mem_cons.mp ha with rfl | ha
        · simp [Action.thread]
        · exact ih.1 ht a ha
      · obtain ⟨hs,ho⟩ := ih.2 q' p hq
        exact ⟨List.mem_cons_of_mem _ hs,fun q'' o r hm => ho q'' o r (by simpa using hm)⟩

theorem Reach.start_of_op {init : σ → Prop} {c : Config Op Res ε Req ρ σ} (h : S.Reach init c)
    {t : ℕ} {q : Req} {o : Op} {r : Res o} (hm : Action.op t q o r ∈ c.state.history) :
    Action.start t q ∈ c.state.history := by
  cases ht : c.threads t with
  | none => exact absurd rfl ((h.history_thread t).1 ht _ hm)
  | some x =>
    obtain ⟨hs,ho⟩ := (h.history_thread t).2 x.1 x.2 ht
    rwa [ho q o r hm]

theorem Reach.same_request {init : σ → Prop} {c : Config Op Res ε Req ρ σ} (h : S.Reach init c)
    {t : ℕ} {q q' : Req} {o o' : Op} {r : Res o} {r' : Res o'}
    (hm : Action.op t q o r ∈ c.state.history) (hm' : Action.op t q' o' r' ∈ c.state.history) :
    q = q' := by
  cases ht : c.threads t with
  | none => exact absurd rfl ((h.history_thread t).1 ht _ hm)
  | some x =>
    have hq := ((h.history_thread t).2 x.1 x.2 ht).2
    rw [hq q o r hm,hq q' o' r' hm']

/-- Thread `t`, serving `q`, works through part of a program without being interrupted. -/
inductive Advances (S : System Op Res ε Req ρ σ) (t : ℕ) (q : Req) {α : Type} :
    Prog Op Res ε α → State Op Res Req σ → Prog Op Res ε α → State Op Res Req σ → Prop
  | refl (p : Prog Op Res ε α) (s : State Op Res Req σ) : Advances S t q p s p s
  | step {o : Op} {k : Res o → Prog Op Res ε α} {s s' : State Op Res Req σ} {r : Res o} {x : σ}
      {p : Prog Op Res ε α} (does : S.exec t q o s r x)
      (rest : Advances S t q (k r) (s.push x (.op t q o r)) p s') :
      Advances S t q (.call o k) s p s'

theorem Reach.advance {init : σ → Prop} {st : State Op Res Req σ} {th : ℕ → Option (Req × Prog Op Res ε ρ)}
    (h : S.Reach init ⟨st,th⟩) {t : ℕ} {q : Req} {p p' : Prog Op Res ε ρ} {s' : State Op Res Req σ}
    (ht : th t = some (q,p)) (ha : S.Advances t q p st p' s') :
    S.Reach init ⟨s',Function.update th t (some (q,p'))⟩ := by
  induction ha generalizing th with
  | refl p s => rwa [← ht,Function.update_eq_self]
  | step does _ ih =>
    have hs := ih (h.step (Step.op ht does)) (by simp)
    simpa using hs

end System

end Interleaving
end CoLinkServer
