import CoLinkServer.Interleaving

/-! What a single thread does, whatever the others do. The operations that one thread has
performed, with their results, form a path through its program, so a property of all these
paths is a property of every thread of every run. -/
namespace CoLinkServer
namespace Interleaving

variable {Op : Type} {Res : Op → Type} {ε Req ρ σ α β : Type}

abbrev Event (Op : Type) (Res : Op → Type) : Type := Σ o : Op, Res o

def Action.event (t : ℕ) : Action Op Res Req → Option (Event Op Res)
  | .op u _ o r => if u = t then some ⟨o,r⟩ else none
  | _ => none

def events (t : ℕ) (h : List (Action Op Res Req)) : List (Event Op Res) := h.filterMap (Action.event t)

@[simp] theorem events_nil (t : ℕ) : events t ([] : List (Action Op Res Req)) = [] := rfl
@[simp] theorem events_start (t u : ℕ) (q : Req) (h : List (Action Op Res Req)) :
    events t (.start u q :: h) = events t h := rfl
@[simp] theorem events_env (t : ℕ) (h : List (Action Op Res Req)) :
    events t (.env :: h) = events t h := rfl
@[simp] theorem events_op_self (t : ℕ) (q : Req) (o : Op) (r : Res o)
    (h : List (Action Op Res Req)) : events t (.op t q o r :: h) = ⟨o,r⟩ :: events t h := by
  simp [events,Action.event]
theorem events_op_of_ne {t u : ℕ} (hu : u ≠ t) (q : Req) (o : Op) (r : Res o)
    (h : List (Action Op Res Req)) : events t (.op u q o r :: h) = events t h := by
  simp [events,Action.event,hu]

theorem events_append (t : ℕ) (h h' : List (Action Op Res Req)) :
    events t (h ++ h') = events t h ++ events t h' := List.filterMap_append

theorem events_mono {h h' : List (Action Op Res Req)} (hs : h <:+ h') (t : ℕ) :
    events t h <:+ events t h' := hs.filterMap _

theorem mem_events {t : ℕ} {h : List (Action Op Res Req)} {o : Op} {r : Res o} :
    ⟨o,r⟩ ∈ events t h ↔ ∃ q, Action.op t q o r ∈ h := by
  simp only [events,List.mem_filterMap]
  constructor
  · rintro ⟨a,ha,he⟩
    cases a with
    | op u q o' r' =>
      simp only [Action.event,Option.ite_none_right_eq_some,Option.some.injEq] at he
      obtain ⟨rfl,he⟩ := he
      cases he
      exact ⟨q,ha⟩
    | start u q => simp [Action.event] at he
    | env => simp [Action.event] at he
  · rintro ⟨q,hq⟩
    exact ⟨_,hq,by simp [Action.event]⟩

/-- The step of a run in which a thread has done something. -/
theorem split_at_event {e : Event Op Res} {before after : List (Event Op Res)} {t : ℕ} :
    ∀ {h : List (Action Op Res Req)}, events t h = before ++ e :: after →
    ∃ later q past, h = later ++ .op t q e.1 e.2 :: past ∧ events t later = before ∧
      events t past = after := by
  intro h
  induction h generalizing before with
  | nil => intro he; simp at he
  | cons a h ih =>
    intro he
    have hskip (ha : events t (a :: h) = events t h) (hone : events t [a] = []) :
        ∃ later q past, a :: h = later ++ .op t q e.1 e.2 :: past ∧ events t later = before ∧
          events t past = after := by
      obtain ⟨later,q,past,rfl,hl,hp⟩ := ih (ha ▸ he)
      refine ⟨a :: later,q,past,rfl,?_,hp⟩
      have hcons : events t (a :: later) = events t [a] ++ events t later := by
        simp only [events,List.filterMap_cons,List.filterMap_nil]
        split <;> rfl
      rw [hcons,hone,hl,List.nil_append]
    cases a with
    | start t' q => exact hskip rfl rfl
    | env => exact hskip rfl rfl
    | op t' q o r =>
      by_cases ht : t' = t
      · subst ht
        rw [events_op_self] at he
        cases before with
        | nil =>
          obtain ⟨rfl,rfl⟩ := List.cons.inj he
          exact ⟨[],q,h,rfl,rfl,rfl⟩
        | cons e' before =>
          obtain ⟨rfl,htail⟩ := List.cons.inj he
          obtain ⟨later,q',past,rfl,hl,hp⟩ := ih htail
          refine ⟨.op t' q o r :: later,q',past,rfl,?_,hp⟩
          rw [events_op_self,hl]
      · exact hskip (events_op_of_ne ht ..) (events_op_of_ne ht ..)

namespace Prog

/-- On every path from `p`, `I` holds of the events after each operation, and `Q` of the
outcome and the events at the end; `h` is what has happened before, newest first. -/
def Traced (I : List (Event Op Res) → Prop) : Prog Op Res ε α → List (Event Op Res) →
    (Except ε α → List (Event Op Res) → Prop) → Prop
  | .ret a,h,Q => Q (.ok a) h
  | .fail e,h,Q => Q (.error e) h
  | .call o k,h,Q => ∀ r, I (⟨o,r⟩ :: h) ∧ (k r).Traced I (⟨o,r⟩ :: h) Q

variable {I : List (Event Op Res) → Prop}

theorem Traced.mono {p : Prog Op Res ε α} {h : List (Event Op Res)}
    {Q Q' : Except ε α → List (Event Op Res) → Prop} (hp : p.Traced I h Q)
    (hq : ∀ r h, Q r h → Q' r h) : p.Traced I h Q' := by
  induction p generalizing h with
  | ret a => exact hq _ _ hp
  | fail e => exact hq _ _ hp
  | call o k ih => exact fun r => ⟨(hp r).1,ih r (hp r).2⟩

theorem Traced.weaken {I' : List (Event Op Res) → Prop} {p : Prog Op Res ε α}
    {h : List (Event Op Res)} {Q : Except ε α → List (Event Op Res) → Prop} (hp : p.Traced I h Q)
    (hI : ∀ h, I h → I' h) : p.Traced I' h Q := by
  induction p generalizing h with
  | ret a => exact hp
  | fail e => exact hp
  | call o k ih => exact fun r => ⟨hI _ (hp r).1,ih r (hp r).2⟩

theorem Traced.and {I' : List (Event Op Res) → Prop} {p : Prog Op Res ε α} {h : List (Event Op Res)}
    {Q Q' : Except ε α → List (Event Op Res) → Prop} (hp : p.Traced I h Q) (hp' : p.Traced I' h Q') :
    p.Traced I h fun r h => Q r h ∧ Q' r h := by
  induction p generalizing h with
  | ret a => exact ⟨hp,hp'⟩
  | fail e => exact ⟨hp,hp'⟩
  | call o k ih => exact fun r => ⟨(hp r).1,ih r (hp r).2 (hp' r).2⟩

theorem Traced.forall {ι : Sort*} [Nonempty ι] {p : Prog Op Res ε α} {h : List (Event Op Res)}
    {Q : ι → Except ε α → List (Event Op Res) → Prop} (hp : ∀ i, p.Traced I h (Q i)) :
    p.Traced I h fun r h => ∀ i, Q i r h := by
  induction p generalizing h with
  | ret a => exact hp
  | fail e => exact hp
  | call o k ih => exact fun r => ⟨(hp (Classical.arbitrary ι) r).1,ih r fun i => (hp i r).2⟩

theorem Traced.bind {p : Prog Op Res ε α} {f : α → Prog Op Res ε β} {h : List (Event Op Res)}
    {Q : Except ε β → List (Event Op Res) → Prop}
    (hp : p.Traced I h fun r h => match r with
      | .ok a => (f a).Traced I h Q
      | .error e => Q (.error e) h) : (p >>= f).Traced I h Q := by
  induction p generalizing h with
  | ret a => exact hp
  | fail e => exact hp
  | call o k ih => exact fun r => ⟨(hp r).1,ih r (hp r).2⟩

theorem Traced.attempt {p : Prog Op Res ε α} {h : List (Event Op Res)}
    {Q : Except ε (Except ε α) → List (Event Op Res) → Prop}
    (hp : p.Traced I h fun r => Q (.ok r)) : p.attempt.Traced I h Q := by
  induction p generalizing h with
  | ret a => exact hp
  | fail e => exact hp
  | call o k ih => exact fun r => ⟨(hp r).1,ih r (hp r).2⟩

theorem Traced.ofExcept {r : Except ε α} {h : List (Event Op Res)}
    {Q : Except ε α → List (Event Op Res) → Prop} (hq : Q r h) :
    (Prog.ofExcept r : Prog Op Res ε α).Traced I h Q := by
  cases r <;> exact hq

/-- A postcondition for the case that nothing goes wrong. -/
def OnOk (P : α → List (Event Op Res) → Prop) : Except ε α → List (Event Op Res) → Prop
  | .ok a,h => P a h
  | .error _,_ => True

theorem Traced.onOk {p : Prog Op Res ε α} {h : List (Event Op Res)}
    {Q : Except ε α → List (Event Op Res) → Prop} (hp : p.Traced I h Q) :
    p.Traced I h (OnOk fun a => Q (.ok a)) :=
  hp.mono fun r h hr => by cases r <;> first | exact hr | trivial

theorem Traced.ok {p : Prog Op Res ε α} {h : List (Event Op Res)}
    {P P' : α → List (Event Op Res) → Prop} (hp : p.Traced I h (OnOk P))
    (hP : ∀ a h, P a h → P' a h) : p.Traced I h (OnOk P') := by
  refine hp.mono fun r h hr => ?_
  cases r with
  | ok a => exact hP a h hr
  | error e => trivial

theorem Traced.seq {p : Prog Op Res ε α} {f : α → Prog Op Res ε β} {h : List (Event Op Res)}
    {P : α → List (Event Op Res) → Prop} {Q : β → List (Event Op Res) → Prop}
    (hp : p.Traced I h (OnOk P)) (hf : ∀ a h, P a h → (f a).Traced I h (OnOk Q)) :
    (p >>= f).Traced I h (OnOk Q) := by
  refine Traced.bind (hp.mono fun r h hr => ?_)
  cases r with
  | ok a => exact hf a h hr
  | error e => trivial

theorem Traced.bracket {acquire release : Prog Op Res ε Unit} {body : Prog Op Res ε α}
    {h : List (Event Op Res)} {A : List (Event Op Res) → Prop}
    {B P : α → List (Event Op Res) → Prop} (ha : acquire.Traced I h (OnOk fun _ => A))
    (hb : ∀ h, A h → body.Traced I h (OnOk B))
    (hr : ∀ h, release.Traced I h fun _ _ => True)
    (hp : ∀ a h, B a h → release.Traced I h (OnOk fun _ => P a)) :
    (Prog.bracket acquire release body).Traced I h (OnOk P) := by
  refine Traced.seq ha fun _ h hA => Traced.bind (Traced.attempt ((hb h hA).mono fun r h hB => ?_))
  refine Traced.bind ?_
  cases r with
  | ok a =>
    refine (hp a h hB).mono fun r' h' hr' => ?_
    cases r' with
    | ok u => exact Traced.ofExcept hr'
    | error e => trivial
  | error e =>
    refine (hr h).mono fun r' h' _ => ?_
    cases r' with
    | ok u => exact Traced.ofExcept trivial
    | error e => trivial

/-- Postconditions for both outcomes. -/
def Ends (P : α → List (Event Op Res) → Prop) (E : List (Event Op Res) → Prop) :
    Except ε α → List (Event Op Res) → Prop
  | .ok a,h => P a h
  | .error _,h => E h

theorem Traced.seqEnds {p : Prog Op Res ε α} {f : α → Prog Op Res ε β} {h : List (Event Op Res)}
    {P : α → List (Event Op Res) → Prop} {Q : β → List (Event Op Res) → Prop}
    {E : List (Event Op Res) → Prop} (hp : p.Traced I h (Ends P E))
    (hf : ∀ a h, P a h → (f a).Traced I h (Ends Q E)) : (p >>= f).Traced I h (Ends Q E) := by
  refine Traced.bind (hp.mono fun r h hr => ?_)
  cases r with
  | ok a => exact hf a h hr
  | error e => exact hr

theorem Traced.bracketEnds {acquire release : Prog Op Res ε Unit} {body : Prog Op Res ε α}
    {h : List (Event Op Res)} {A E : List (Event Op Res) → Prop}
    {P : α → List (Event Op Res) → Prop} (ha : acquire.Traced I h (Ends (fun _ => A) E))
    (hb : ∀ h, A h → body.Traced I h (Ends P E))
    (hp : ∀ a h, P a h → release.Traced I h (Ends (fun _ => P a) E))
    (hr : ∀ h, E h → release.Traced I h fun _ => E) :
    (Prog.bracket acquire release body).Traced I h (Ends P E) := by
  refine Traced.seqEnds ha fun _ h hA => Traced.bind (Traced.attempt ((hb h hA).mono fun r h hB => ?_))
  refine Traced.bind ?_
  cases r with
  | ok a =>
    refine (hp a h hB).mono fun r' h' hr' => ?_
    cases r' with
    | ok u => exact Traced.ofExcept hr'
    | error e => exact hr'
  | error e =>
    refine (hr h hB).mono fun r' h' hr' => ?_
    cases r' with
    | ok u => exact Traced.ofExcept hr'
    | error e => exact hr'

theorem Traced.foldlM {ι : Type} {f : α → ι → Prog Op Res ε α} {is : List ι}
    {J : List ι → α → List (Event Op Res) → Prop}
    (round : ∀ i is a h, J (i :: is) a h → (f a i).Traced I h (OnOk (J is))) {a : α}
    {h : List (Event Op Res)} (hj : J is a h) : (is.foldlM f a).Traced I h (OnOk (J [])) := by
  induction is generalizing a h with
  | nil => exact hj
  | cons i is ih =>
    rw [List.foldlM_cons]
    exact Traced.seq (round i is a h hj) fun b h hb => ih hb

/-- The same for a loop over a list with positions, counted. -/
theorem Traced.foldlM_zipIdx {ι : Type} {f : α → ι × ℕ → Prog Op Res ε α} {is : List ι}
    {J : ℕ → α → List (Event Op Res) → Prop}
    (round : ∀ n i a h, is[n]? = some i → J n a h → (f a (i,n)).Traced I h (OnOk (J (n + 1))))
    {a : α} {h : List (Event Op Res)} (hj : J 0 a h) :
    (is.zipIdx.foldlM f a).Traced I h (OnOk (J is.length)) := by
  have hrec (rest : List ι) : ∀ n a h, is.drop n = rest → J n a h →
      ((rest.zipIdx n).foldlM f a).Traced I h (OnOk (J (n + rest.length))) := by
    induction rest with
    | nil => exact fun n a h _ hj => hj
    | cons i rest ih =>
      intro n a h hd hj
      have hi : is[n]? = some i := by
        rw [← List.head?_drop,hd]
        rfl
      have hr : is.drop (n + 1) = rest := by rw [← List.tail_drop,hd,List.tail_cons]
      rw [List.zipIdx_cons,List.foldlM_cons]
      refine Traced.seq (round n i a h hi hj) fun b h hb => ?_
      have hh := ih (n + 1) b h hr hb
      rwa [List.length_cons,Nat.add_comm rest.length 1,← Nat.add_assoc]
  have hh := hrec is 0 a h (List.drop_zero ..) hj
  rwa [Nat.zero_add] at hh

theorem Traced.foldlMEnds {ι : Type} {f : α → ι → Prog Op Res ε α} {is : List ι}
    {J : α → List (Event Op Res) → Prop} {E : List (Event Op Res) → Prop}
    (round : ∀ i ∈ is, ∀ a h, J a h → (f a i).Traced I h (Ends J E)) {a : α}
    {h : List (Event Op Res)} (hj : J a h) : (is.foldlM f a).Traced I h (Ends J E) := by
  induction is generalizing a h with
  | nil => exact hj
  | cons i is ih =>
    rw [List.foldlM_cons]
    exact Traced.seqEnds (round i (List.mem_cons_self ..) a h hj) fun b h hb =>
      ih (fun i' hi' => round i' (List.mem_cons_of_mem _ hi')) hb

theorem Traced.of_all {φ : Op → Prop} {p : Prog Op Res ε α} (hφ : p.All φ)
    {J : List (Event Op Res) → Prop} (step : ∀ o, φ o → ∀ r h, J h → I (⟨o,r⟩ :: h) ∧ J (⟨o,r⟩ :: h))
    {h : List (Event Op Res)} (hj : J h) : p.Traced I h fun _ => J := by
  induction p generalizing h with
  | ret a => exact hj
  | fail e => exact hj
  | call o k ih =>
    intro r
    exact ⟨(step o hφ.1 r h hj).1,ih r (hφ.2 r) (step o hφ.1 r h hj).2⟩

theorem Traced.of_stable {J : List (Event Op Res) → Prop}
    (step : ∀ e h, J h → I (e :: h) ∧ J (e :: h)) (p : Prog Op Res ε α) {h : List (Event Op Res)}
    (hj : J h) : p.Traced I h fun _ => J := by
  induction p generalizing h with
  | ret a => exact hj
  | fail e => exact hj
  | call o k ih => exact fun r => ⟨(step _ h hj).1,ih r (step _ h hj).2⟩

theorem Traced.of_forall (hI : ∀ h, I h) (p : Prog Op Res ε α) (h : List (Event Op Res)) :
    p.Traced I h fun _ _ => True :=
  of_stable (fun e h _ => ⟨hI (e :: h),trivial⟩) p trivial

theorem Traced.adds {φ : Op → Prop} {p : Prog Op Res ε α} (hφ : p.All φ)
    {h : List (Event Op Res)}
    (hI : ∀ e added, (∀ e' ∈ added, φ e'.1) → φ e.1 → I (e :: (added ++ h))) :
    p.Traced I h fun _ h' => ∃ added, h' = added ++ h ∧ ∀ e ∈ added, φ e.1 := by
  refine of_all hφ (J := fun h' => ∃ added, h' = added ++ h ∧ ∀ e ∈ added, φ e.1)
    (fun o ho r h' hj => ?_) ⟨[],rfl,by simp⟩
  obtain ⟨added,rfl,ha⟩ := hj
  refine ⟨hI ⟨o,r⟩ added ha ho,⟨o,r⟩ :: added,rfl,fun e he => ?_⟩
  rcases List.mem_cons.mp he with rfl | he
  · exact ho
  · exact ha e he

end Prog

namespace System

variable {S : System Op Res ε Req ρ σ}

/-- A property of all paths of a program holds of every thread that runs it. -/
theorem Reach.traced {init : σ → Prop} {I : Req → List (Event Op Res) → Prop}
    {Q : Req → Except ε ρ → List (Event Op Res) → Prop}
    (body : ∀ q, (S.body q).Traced (I q) [] (Q q)) {c : Config Op Res ε Req ρ σ}
    (hc : S.Reach init c) (t : ℕ) :
    (c.threads t = none → events t c.state.history = []) ∧
    ∀ q p, c.threads t = some (q,p) →
      p.Traced (I q) (events t c.state.history) (Q q) ∧
      ∀ e h, e :: h <:+ events t c.state.history → I q (e :: h) := by
  induction hc with
  | init _ => simp
  | step _ s ih =>
    cases s with
    | @start u q x fresh begins =>
      simp only [State.push_history,events_start]
      by_cases hu : t = u
      · subst hu
        refine ⟨by simp,fun q' p hq => ?_⟩
        obtain ⟨rfl,rfl⟩ : q = q' ∧ S.body q = p := by simpa using hq
        rw [ih.1 fresh]
        exact ⟨body q,by simp⟩
      · simpa [hu] using ih
    | @op u q o k r x runs does =>
      by_cases hu : t = u
      · subst hu
        refine ⟨by simp,fun q' p hq => ?_⟩
        obtain ⟨rfl,rfl⟩ : q = q' ∧ k r = p := by simpa using hq
        obtain ⟨hp,hi⟩ := ih.2 q _ runs
        rw [State.push_history,events_op_self]
        refine ⟨(hp r).2,fun e h hs => ?_⟩
        rcases List.suffix_cons_iff.mp hs with hs | hs
        · obtain ⟨rfl,rfl⟩ := List.cons.inj hs
          exact (hp r).1
        · exact hi e h hs
      · simpa [hu,events_op_of_ne (Ne.symm hu)] using ih
    | env moves =>
      simpa using ih

theorem Reach.traced_end {init : σ → Prop} {I : Req → List (Event Op Res) → Prop}
    {Q : Req → Except ε ρ → List (Event Op Res) → Prop}
    (body : ∀ q, (S.body q).Traced (I q) [] (Q q)) {c : Config Op Res ε Req ρ σ}
    (hc : S.Reach init c) {t : ℕ} {q : Req} {r : Except ε ρ}
    (ht : c.threads t = some (q,.ofExcept r)) : Q q r (events t c.state.history) := by
  have hp := ((hc.traced body t).2 q _ ht).1
  cases r <;> exact hp

theorem Reach.traced_op {init : σ → Prop} {I : Req → List (Event Op Res) → Prop}
    {Q : Req → Except ε ρ → List (Event Op Res) → Prop}
    (body : ∀ q, (S.body q).Traced (I q) [] (Q q)) {c : Config Op Res ε Req ρ σ}
    (hc : S.Reach init c) {t : ℕ} {q : Req} {o : Op} {r : Res o} {h : List (Action Op Res Req)}
    (hs : .op t q o r :: h <:+ c.state.history) : I q (⟨o,r⟩ :: events t h) := by
  have hm : Action.op t q o r ∈ c.state.history := hs.subset (List.mem_cons_self ..)
  cases ht : c.threads t with
  | none => exact absurd rfl ((hc.history_thread t).1 ht _ hm)
  | some x =>
    obtain ⟨q',p⟩ := x
    obtain rfl : q = q' := ((hc.history_thread t).2 q' p ht).2 q o r hm
    have hev := hs.filterMap (Action.event t)
    rw [← events,events_op_self] at hev
    exact ((hc.traced body t).2 q p ht).2 _ _ hev

theorem Reach.all_op {init : σ → Prop} {φ : Req → Op → Prop} (body : ∀ q, (S.body q).All (φ q))
    {c : Config Op Res ε Req ρ σ} (hc : S.Reach init c) {t : ℕ} {q : Req} {o : Op} {r : Res o}
    (hm : .op t q o r ∈ c.state.history) : φ q o := by
  obtain ⟨past,hs⟩ := suffix_of_mem hm
  have htraced (q : Req) : (S.body q).Traced (fun h => ∀ e ∈ h.head?, φ q e.1) [] fun _ _ => True :=
    Prog.Traced.of_all (J := fun _ => True) (body q)
      (fun o ho r h _ => ⟨by simpa using ho,trivial⟩) trivial
  simpa using hc.traced_op htraced hs

end System

section Together

variable {N : Type}

@[simp] theorem thread_start (t : ℕ) (q : Req) : (Action.start t q : Action Op Res Req).thread = some t := rfl
@[simp] theorem thread_op (t : ℕ) (q : Req) (o : Op) (r : Res o) : (Action.op t q o r).thread = some t := rfl
@[simp] theorem thread_env : (Action.env : Action Op Res Req).thread = none := rfl

theorem filterMap_thread {f : Action Op Res Req → Option N} {g : Event Op Res → Option N} {t : ℕ}
    {h : List (Action Op Res Req)} (hstart : ∀ q, f (.start t q) = none)
    (hop : ∀ q o r, .op t q o r ∈ h → f (.op t q o r) = g ⟨o,r⟩) :
    (h.filter fun a => a.thread = some t).filterMap f = (events t h).filterMap g := by
  induction h with
  | nil => rfl
  | cons a h ih =>
    have ih := ih fun q o r hm => hop q o r (List.mem_cons_of_mem _ hm)
    cases a with
    | start u q =>
      by_cases hu : u = t
      · subst hu
        simpa [hstart q] using ih
      · simpa [hu] using ih
    | env => simpa using ih
    | op u q o r =>
      by_cases hu : u = t
      · subst hu
        simp [hop q o r (List.mem_cons_self ..),List.filterMap_cons,ih]
      · simpa [hu,events_op_of_ne hu] using ih

/-- A step with the thread that has made it. -/
def withThread (f : Action Op Res Req → Option N) (a : Action Op Res Req) : Option (ℕ × N) :=
  a.thread.bind fun t => (f a).map fun n => (t,n)

theorem map_withThread {f : Action Op Res Req → Option N} (hf : f .env = none) (h : List (Action Op Res Req)) :
    (h.filterMap (withThread f)).map Prod.snd = h.filterMap f := by
  rw [List.map_filterMap]
  congr 1
  funext a
  cases a with
  | env => simp [withThread,hf]
  | start t q => simp [withThread,Function.comp_def]
  | op t q o r => simp [withThread,Function.comp_def]

theorem count_withThread [DecidableEq N] (f : Action Op Res Req → Option N) (t : ℕ) (n : N)
    (h : List (Action Op Res Req)) : (h.filterMap (withThread f)).count (t,n) =
      ((h.filter fun a => a.thread = some t).filterMap f).count n := by
  induction h with
  | nil => rfl
  | cons a h ih =>
    cases hthread : a.thread with
    | none => simpa [withThread,hthread] using ih
    | some u =>
      by_cases hu : u = t
      · subst hu
        cases hf : f a with
        | none => simpa [withThread,hthread,hf] using ih
        | some m => simp [withThread,hthread,hf,List.count_cons,ih]
      · cases hf : f a with
        | none => simpa [withThread,hthread,hf,hu] using ih
        | some m => simp [withThread,hthread,hf,hu,ih]

theorem perm_of_threads {f g : Action Op Res Req → Option N} {h h' : List (Action Op Res Req)}
    (hf : f .env = none) (hg : g .env = none)
    (hthreads : ∀ t, ((h.filter fun a => a.thread = some t).filterMap f).Perm
      ((h'.filter fun a => a.thread = some t).filterMap g)) :
    (h.filterMap f).Perm (h'.filterMap g) := by
  classical
  rw [← map_withThread hf,← map_withThread hg]
  refine (List.perm_iff_count.mpr fun x => ?_).map _
  rw [count_withThread,count_withThread]
  exact (hthreads x.1).count_eq x.2

end Together

end Interleaving
end CoLinkServer
