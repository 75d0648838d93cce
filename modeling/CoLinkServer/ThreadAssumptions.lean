import CoLinkServer.ThreadTraces

/-! What a single thread does as long as the operations answer as they are assumed to. The
assumption about an answer may depend on what has happened in the thread before. -/
namespace CoLinkServer
namespace Interleaving

variable {Op : Type} {Res : Op → Type} {ε Req ρ σ α β : Type}

namespace Prog

/-- On every path from `p` on which `G` holds of the events after each operation, `Q` holds of the
outcome and the events at the end; `h` is what has happened before, newest first. -/
def Under (G : List (Event Op Res) → Prop) : Prog Op Res ε α → List (Event Op Res) →
    (Except ε α → List (Event Op Res) → Prop) → Prop
  | .ret a,h,Q => Q (.ok a) h
  | .fail e,h,Q => Q (.error e) h
  | .call o k,h,Q => ∀ r, G (⟨o,r⟩ :: h) → (k r).Under G (⟨o,r⟩ :: h) Q

variable {G : List (Event Op Res) → Prop} {h : List (Event Op Res)}

theorem Under.mono {p : Prog Op Res ε α} {Q Q' : Except ε α → List (Event Op Res) → Prop}
    (hp : p.Under G h Q) (hq : ∀ r h', h <:+ h' → Q r h' → Q' r h') : p.Under G h Q' := by
  induction p generalizing h with
  | ret a => exact hq _ _ List.suffix_rfl hp
  | fail e => exact hq _ _ List.suffix_rfl hp
  | call o k ih =>
    exact fun r hr => ih r (hp r hr) fun r' h' hs => hq r' h' ((List.suffix_cons _ _).trans hs)

theorem Under.bind {p : Prog Op Res ε α} {f : α → Prog Op Res ε β}
    {Q : Except ε β → List (Event Op Res) → Prop} (hp : p.Under G h fun r h => match r with
      | .ok a => (f a).Under G h Q
      | .error e => Q (.error e) h) : (p >>= f).Under G h Q := by
  induction p generalizing h with
  | ret a => exact hp
  | fail e => exact hp
  | call o k ih => exact fun r hr => ih r (hp r hr)

theorem Under.attempt {p : Prog Op Res ε α} {Q : Except ε (Except ε α) → List (Event Op Res) → Prop}
    (hp : p.Under G h fun r => Q (.ok r)) : p.attempt.Under G h Q := by
  induction p generalizing h with
  | ret a => exact hp
  | fail e => exact hp
  | call o k ih => exact fun r hr => ih r (hp r hr)

theorem Under.ofExcept {r : Except ε α} {Q : Except ε α → List (Event Op Res) → Prop} (hq : Q r h) :
    (Prog.ofExcept r : Prog Op Res ε α).Under G h Q := by
  cases r <;> exact hq

/-- The program does not end with the error, and what it hands over satisfies `P`. -/
def Avoids (e : ε) (P : α → List (Event Op Res) → Prop) : Except ε α → List (Event Op Res) → Prop
  | .ok a,h => P a h
  | .error e',_ => e' ≠ e

variable {e : ε} {P : α → List (Event Op Res) → Prop}

theorem Under.seq {p : Prog Op Res ε α} {f : α → Prog Op Res ε β} {Q : β → List (Event Op Res) → Prop}
    (hp : p.Under G h (Avoids e P))
    (hf : ∀ a h', h <:+ h' → P a h' → (f a).Under G h' (Avoids e Q)) :
    (p >>= f).Under G h (Avoids e Q) := by
  refine Under.bind (hp.mono fun r h' hs hr => ?_)
  cases r with
  | ok a => exact hf a h' hs hr
  | error e' => exact hr

theorem Under.imp {p : Prog Op Res ε α} {P' : α → List (Event Op Res) → Prop}
    (hp : p.Under G h (Avoids e P)) (hP : ∀ a h', h <:+ h' → P a h' → P' a h') :
    p.Under G h (Avoids e P') := by
  refine hp.mono fun r h' hs hr => ?_
  cases r with
  | ok a => exact hP a h' hs hr
  | error e' => exact hr

theorem Under.bracket {acquire release : Prog Op Res ε Unit} {body : Prog Op Res ε α}
    (ha : acquire.Under G h (Avoids e fun _ _ => True))
    (hb : ∀ h', h <:+ h' → body.Under G h' (Avoids e P))
    (hr : ∀ h', h <:+ h' → release.Under G h' (Avoids e fun _ _ => True))
    (hP : ∀ a h' h'', P a h' → h' <:+ h'' → P a h'') :
    (Prog.bracket acquire release body).Under G h (Avoids e P) := by
  refine Under.seq ha fun _ h' hs _ => Under.bind (Under.attempt ((hb h' hs).mono fun r h'' hs' hB => ?_))
  refine Under.bind ((hr h'' (hs.trans hs')).mono fun r' h''' hs'' hr' => ?_)
  cases r' with
  | error e' => exact hr'
  | ok _ =>
    refine Under.ofExcept ?_
    cases r with
    | ok a => exact hP a h'' h''' hB hs''
    | error e' => exact hB

theorem Under.foldlM {ι : Type} {f : α → ι → Prog Op Res ε α} {is : List ι}
    {J : List ι → α → List (Event Op Res) → Prop}
    (round : ∀ i is a h', h <:+ h' → J (i :: is) a h' → (f a i).Under G h' (Avoids e (J is))) {a : α}
    (hj : J is a h) : (is.foldlM f a).Under G h (Avoids e (J [])) := by
  induction is generalizing a h with
  | nil => exact hj
  | cons i is ih =>
    rw [List.foldlM_cons]
    refine Under.seq (round i is a h List.suffix_rfl hj) fun b h' hs hb => ?_
    exact ih (fun i is a h'' hs' => round i is a h'' (hs.trans hs')) hb

end Prog

namespace System

variable {S : System Op Res ε Req ρ σ}

/-- If the operations of a thread have answered as assumed, the thread is on a path on which they
have. -/
theorem Reach.assumed {init : σ → Prop} {t : ℕ} {c : Config Op Res ε Req ρ σ} (hc : S.Reach init c)
    {q : Req} {p : Prog Op Res ε ρ} (ht : c.threads t = some (q,p)) {G : List (Event Op Res) → Prop}
    {Q : Except ε ρ → List (Event Op Res) → Prop} (body : (S.body q).Under G [] Q)
    (hG : ∀ o r past, .op t q o r :: past <:+ c.state.history → G (⟨o,r⟩ :: events t past)) :
    p.Under G (events t c.state.history) Q := by
  induction hc generalizing p with
  | init _ => cases ht
  | @step c c' a hc s ih =>
    cases s with
    | @start u q' x fresh begins =>
      rw [State.push_history,events_start]
      by_cases hu : t = u
      · subst hu
        obtain ⟨rfl,rfl⟩ : q' = q ∧ S.body q' = p := by simpa using ht
        have hnone : events t c.state.history = [] := by
          refine List.eq_nil_iff_forall_not_mem.mpr fun e he => ?_
          obtain ⟨q'',hm⟩ := mem_events.mp he
          exact (hc.history_thread t).1 fresh _ hm rfl
        rwa [hnone]
      · exact ih (by simpa [hu] using ht) fun o r past hs => hG o r past (hs.trans (List.suffix_cons _ _))
    | @op u q' o k r x runs does =>
      rw [State.push_history]
      by_cases hu : t = u
      · subst hu
        obtain ⟨rfl,rfl⟩ : q' = q ∧ k r = p := by simpa using ht
        have hp := ih runs fun o r past hs => hG o r past (hs.trans (List.suffix_cons _ _))
        rw [events_op_self]
        exact hp r (hG o r _ List.suffix_rfl)
      · rw [events_op_of_ne (Ne.symm hu)]
        exact ih (by simpa [hu] using ht) fun o r past hs => hG o r past (hs.trans (List.suffix_cons _ _))
    | env moves =>
      exact ih ht fun o r past hs => hG o r past (hs.trans (List.suffix_cons _ _))

end System

end Interleaving
end CoLinkServer
