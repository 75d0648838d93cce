import CoLinkServer.Interleaving
import Mathlib.Data.List.Induction

/-! Runs under a given schedule. A player performs every operation in one particular way; a
schedule says whose turn it is. -/
namespace CoLinkServer
namespace Interleaving

variable {Op : Type} {Res : Op → Type} {ε Req ρ σ α ι : Type}

namespace Prog

def outcome : Prog Op Res ε α → Option (Except ε α)
  | .ret a => some (.ok a)
  | .fail e => some (.error e)
  | .call _ _ => none

theorem eq_ofExcept_of_outcome {p : Prog Op Res ε α} {r : Except ε α} (h : p.outcome = some r) :
    p = .ofExcept r := by
  cases p with
  | call o k => cases h
  | _ =>
    obtain rfl := Option.some.inj h
    rfl

end Prog

/-- An operation without an answer blocks. What a schedule says about a new thread may leave it to
the state what the thread serves. -/
structure Player (S : System Op Res ε Req ρ σ) (ι : Type) where
  answer : ℕ → Req → State Op Res Req σ → (o : Op) → Option (Res o × σ)
  does : ∀ {t q s o r x}, answer t q s o = some (r,x) → S.exec t q o s r x
  serves : ℕ → ι → State Op Res Req σ → Option (Req × σ)
  begins : ∀ {t i s q x}, serves t i s = some (q,x) → S.start t q s x

inductive Turn (ι : Type)
  | start (t : ℕ) (i : ι)
  | step (t : ℕ)

namespace Player

variable {S : System Op Res ε Req ρ σ} (P : Player S ι)

/-- A turn of a thread that cannot move is skipped. -/
def turn (c : Config Op Res ε Req ρ σ) : Turn ι → Config Op Res ε Req ρ σ
  | .start t i =>
    match c.threads t,P.serves t i c.state with
    | none,some (q,x) => ⟨c.state.push x (.start t q),
        Function.update c.threads t (some (q,S.body q))⟩
    | _,_ => c
  | .step t =>
    match c.threads t with
    | some (q,.call o k) =>
      match P.answer t q c.state o with
      | some (r,x) => ⟨c.state.push x (.op t q o r),Function.update c.threads t (some (q,k r))⟩
      | none => c
    | _ => c

/-- The schedule is played from a state in which no thread has started. -/
def play (x : σ) (schedule : List (Turn ι)) : Config Op Res ε Req ρ σ :=
  schedule.foldl P.turn ⟨⟨x,[]⟩,fun _ => none⟩

/-- The threads that a schedule starts. -/
def started (schedule : List (Turn ι)) : List ℕ := schedule.filterMap fun move => match move with
  | .start t _ => some t
  | .step _ => none

theorem reach_turn {init : σ → Prop} {c : Config Op Res ε Req ρ σ} (hc : S.Reach init c)
    (move : Turn ι) : S.Reach init (P.turn c move) := by
  cases move with
  | start t i =>
    simp only [turn]
    split
    · next q x ht hi => exact hc.step (.start ht (P.begins hi))
    · exact hc
  | step t =>
    simp only [turn]
    split
    · next q o k ht =>
      split
      · next r x ha => exact hc.step (.op ht (P.does ha))
      · exact hc
    · exact hc

theorem reach_play (init : σ → Prop) {x : σ} (hx : init x) (schedule : List (Turn ι)) :
    S.Reach init (P.play x schedule) := by
  induction schedule using List.reverseRecOn with
  | nil => exact .init hx
  | append_singleton schedule move ih =>
    rw [play,List.foldl_append]
    exact P.reach_turn ih move

/-- Threads that the schedule does not start stay away. -/
theorem threads_play {x : σ} {schedule : List (Turn ι)} {t : ℕ} (h : t ∉ started schedule) :
    (P.play x schedule).threads t = none := by
  induction schedule using List.reverseRecOn with
  | nil => rfl
  | append_singleton schedule move ih =>
    rw [started,List.filterMap_append,List.mem_append,not_or] at h
    have ht := ih h.1
    rw [play] at ht ⊢
    rw [List.foldl_append,List.foldl_cons,List.foldl_nil]
    cases move with
    | start u i =>
      have hu : t ≠ u := by simpa using h.2
      simp only [turn]
      split
      · simpa [hu] using ht
      · exact ht
    | step u =>
      simp only [turn]
      split
      · next q o k hu =>
        have hne : t ≠ u := by
          rintro rfl
          rw [ht] at hu
          cases hu
        split
        · simpa [hne] using ht
        · exact ht
      · exact ht

theorem ended_play {x : σ} {schedule : List (Turn ι)}
    (h : ∀ t ∈ started schedule,
      ((P.play x schedule).threads t).all fun p => p.2.outcome.isSome) :
    ∀ t q p, (P.play x schedule).threads t = some (q,p) → ∃ r, p = .ofExcept r := by
  intro t q p ht
  by_cases hs : t ∈ started schedule
  · have he := h t hs
    rw [ht] at he
    obtain ⟨r,hr⟩ := Option.isSome_iff_exists.mp (by simpa using he)
    exact ⟨r,Prog.eq_ofExcept_of_outcome hr⟩
  · rw [P.threads_play hs] at ht
    cases ht

end Player

end Interleaving
end CoLinkServer
