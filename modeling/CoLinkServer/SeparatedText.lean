import Mathlib.Data.List.Basic
import Mathlib.Data.String.Basic
import Std.Data.String.ToInt

/-! Texts built with a separator character, and how far the parts can be read back: at the
first or the last separator, or at all of them. Nothing here depends on what the parts
mean. -/
namespace CoLinkServer
namespace SeparatedText

section Lists

variable {α : Type} [DecidableEq α]

/-- Split at the last occurrence of `c`. -/
def splitLast (c : α) : List α → Option (List α × List α)
  | [] => none
  | x :: xs => match splitLast c xs with
    | some (a,b) => some (x :: a,b)
    | none => if x = c then some ([],xs) else none

/-- Split at the first occurrence of `c`. -/
def splitFirst (c : α) : List α → Option (List α × List α)
  | [] => none
  | x :: xs => if x = c then some ([],xs) else (splitFirst c xs).map fun (a,b) => (x :: a,b)

theorem splitLast_eq_none {c : α} {l : List α} : splitLast c l = none ↔ c ∉ l := by
  induction l with
  | nil => simp [splitLast]
  | cons x xs ih =>
    simp only [splitLast,List.mem_cons,not_or,← ih]
    cases h : splitLast c xs with
    | some p => simp
    | none => by_cases hx : x = c <;> simp [hx,Ne.symm]

theorem splitLast_append {c : α} {b : List α} (hb : c ∉ b) (a : List α) :
    splitLast c (a ++ c :: b) = some (a,b) := by
  induction a with
  | nil => simp [splitLast,splitLast_eq_none.mpr hb]
  | cons x a ih => simp [splitLast,ih]

theorem splitLast_eq_some {c : α} {l a b : List α} :
    splitLast c l = some (a,b) ↔ l = a ++ c :: b ∧ c ∉ b := by
  refine ⟨fun h => ?_,fun ⟨hl,hb⟩ => hl ▸ splitLast_append hb a⟩
  induction l generalizing a with
  | nil => simp [splitLast] at h
  | cons x xs ih =>
    simp only [splitLast] at h
    split at h
    · rename_i a' b' he
      obtain ⟨rfl,rfl⟩ : x :: a' = a ∧ b' = b := by simpa using h
      obtain ⟨rfl,hb⟩ := ih he
      exact ⟨rfl,hb⟩
    · rename_i he
      split_ifs at h with hx
      obtain ⟨rfl,rfl⟩ : [] = a ∧ xs = b := by simpa using h
      exact ⟨by simp [hx],splitLast_eq_none.mp he⟩

theorem splitFirst_append {c : α} {a : List α} (ha : c ∉ a) (b : List α) :
    splitFirst c (a ++ c :: b) = some (a,b) := by
  induction a with
  | nil => simp [splitFirst]
  | cons x a ih =>
    simp only [List.mem_cons,not_or] at ha
    simp [splitFirst,ih ha.2,Ne.symm ha.1]

theorem exists_first {c : α} {l : List α} (h : c ∈ l) : ∃ a b, l = a ++ c :: b ∧ c ∉ a := by
  induction l with
  | nil => simp at h
  | cons x xs ih =>
    by_cases hx : c = x
    · exact ⟨[],xs,by simp [hx],by simp⟩
    · obtain ⟨a,b,rfl,ha⟩ := ih (by simpa [hx] using h)
      exact ⟨x :: a,b,rfl,by simp [hx,ha]⟩

theorem last_sep_inj {c : α} {a a' b b' : List α} (hb : c ∉ b) (hb' : c ∉ b') :
    a ++ c :: b = a' ++ c :: b' ↔ a = a' ∧ b = b' := by
  refine ⟨fun h => ?_,fun ⟨ha,hb⟩ => by rw [ha,hb]⟩
  have hs := splitLast_append hb a
  rw [h,splitLast_append hb'] at hs
  simpa [eq_comm] using hs

theorem first_sep_inj {c : α} {a a' b b' : List α} (ha : c ∉ a) (ha' : c ∉ a') :
    a ++ c :: b = a' ++ c :: b' ↔ a = a' ∧ b = b' := by
  refine ⟨fun h => ?_,fun ⟨ha,hb⟩ => by rw [ha,hb]⟩
  have hs := splitFirst_append ha b
  rw [h,splitFirst_append ha'] at hs
  simpa [eq_comm] using hs

/-- A text that ends in the separator is a prefix of `s ++ c :: rest` exactly when it is the
first part or goes on into the rest. -/
theorem sep_prefix_append {c : α} {s rest d : List α} (hs : c ∉ s) :
    d ++ [c] <+: s ++ c :: rest ↔ d = s ∨ ∃ e, d = s ++ c :: e ∧ e ++ [c] <+: rest := by
  constructor
  · rintro ⟨z,hz⟩
    by_cases hd : c ∈ d
    · obtain ⟨a,b,rfl,ha⟩ := exists_first hd
      have he : a ++ c :: (b ++ c :: z) = s ++ c :: rest := by simpa using hz
      obtain ⟨rfl,rfl⟩ := (first_sep_inj ha hs).mp he
      exact .inr ⟨b,rfl,z,by simp⟩
    · have he : d ++ c :: z = s ++ c :: rest := by simpa using hz
      exact .inl ((first_sep_inj hd hs).mp he).1
  · rintro (rfl | ⟨e,rfl,z,rfl⟩)
    · exact ⟨rest,by simp⟩
    · exact ⟨z,by simp⟩

omit [DecidableEq α] in
theorem not_sep_prefix {c : α} {s d : List α} (hs : c ∉ s) : ¬ d ++ [c] <+: s := by
  rintro ⟨z,rfl⟩
  simp at hs

/-- The texts obtained by joining ever more of the pieces, without the last join: `d` is the
join of the pieces so far. -/
def levels (c : α) (d : List α) : List (List α) → List (List α)
  | [] => []
  | s :: rest => d :: levels c (d ++ c :: s) rest

theorem mem_levels {c : α} {s d : List α} {rest : List (List α)} (p : List α) (hs : c ∉ s)
    (hr : ∀ r ∈ rest, c ∉ r) :
    d ∈ levels c (p ++ s) rest ↔
      ∃ e, d = p ++ e ∧ e ++ [c] <+: [c].intercalate (s :: rest) := by
  induction rest generalizing p s with
  | nil =>
    have hn (e : List α) : ¬ e ++ [c] <+: s := not_sep_prefix hs
    simp [levels,hn]
  | cons r rest ih =>
    have hr' := List.forall_mem_cons.mp hr
    have hp : p ++ s ++ c :: r = (p ++ s ++ [c]) ++ r := by simp
    have hi : [c].intercalate (s :: r :: rest) = s ++ c :: [c].intercalate (r :: rest) := by
      simp [List.intercalate_cons_cons]
    rw [levels,List.mem_cons,hp,ih _ hr'.1 hr'.2,hi]
    simp only [sep_prefix_append hs]
    constructor
    · rintro (rfl | ⟨e,rfl,he⟩)
      · exact ⟨s,rfl,.inl rfl⟩
      · exact ⟨s ++ c :: e,by simp,.inr ⟨e,rfl,he⟩⟩
    · rintro ⟨e,rfl,rfl | ⟨e',rfl,he⟩⟩
      · exact .inl rfl
      · exact .inr ⟨e',by simp,he⟩

theorem not_mem_of_mem_splitOn {c : α} {l s : List α} (h : s ∈ l.splitOn c) : c ∉ s := by
  induction l generalizing s with
  | nil =>
    have hh : s = [] := by simpa [List.splitOn_nil] using h
    simp [hh]
  | cons x xs ih =>
    rw [List.splitOn_cons_eq_if_modifyHead] at h
    split_ifs at h with hx
    · rcases List.mem_cons.mp h with rfl | h
      · simp
      · exact ih h
    · have hx' : c ≠ x := fun hc => hx (by simp [hc])
      cases hl : xs.splitOn c with
      | nil => exact absurd hl (List.splitOn_ne_nil _ _)
      | cons y ys =>
        rw [hl] at h ih
        rcases List.mem_cons.mp h with rfl | h
        · have hy := ih (List.mem_cons_self ..)
          simp [hx',hy]
        · exact ih (List.mem_cons_of_mem _ h)

end Lists

theorem digit_of_mem_repr {n : ℕ} {c : Char} (h : c ∈ (Nat.repr n).toList) : c.isDigit := by
  rw [Nat.toList_repr] at h
  exact Nat.isDigit_of_mem_toDigits (by decide) (by decide) h

theorem mem_int_repr {z : ℤ} {c : Char} (h : c ∈ (Int.repr z).toList) : c = '-' ∨ c.isDigit := by
  cases z with
  | ofNat n => exact .inr (digit_of_mem_repr h)
  | negSucc n =>
    have h' : c ∈ ("-" ++ Nat.repr (n+1)).toList := h
    rw [String.toList_append,List.mem_append] at h'
    rcases h' with h' | h'
    · exact .inl (by simpa using h')
    · exact .inr (digit_of_mem_repr h')

theorem not_mem_int_toString {z : ℤ} {c : Char} (hm : c ≠ '-') (hd : c.isDigit = false) :
    c ∉ (toString z).toList := fun h => by
  rcases mem_int_repr (z := z) h with h | h
  · exact hm h
  · simp [hd] at h

theorem int_toString_inj {a b : ℤ} : toString a = toString b ↔ a = b := Int.repr_inj

/-- The number that a text of decimal digits denotes. -/
def decimal (digits : List Char) : Option ℕ :=
  if digits ≠ [] ∧ digits.all Char.isDigit then some (Nat.ofDigitChars 10 digits 0) else none

theorem decimal_repr (n : ℕ) : decimal (Nat.repr n).toList = some n := by
  have hne : Nat.toDigits 10 n ≠ [] := List.ne_nil_of_length_pos Nat.length_toDigits_pos
  have hd : ∀ c ∈ Nat.toDigits 10 n, c.isDigit := fun c hc =>
    Nat.isDigit_of_mem_toDigits (by decide) (by decide) hc
  rw [Nat.toList_repr]
  simpa [decimal,hne] using hd

/-- A number and its sign. -/
def signedDecimal : List Char → Option ℤ
  | '-' :: digits => (decimal digits).map fun n => -(n : ℤ)
  | '+' :: digits => (decimal digits).map fun n => (n : ℤ)
  | digits => (decimal digits).map fun n => (n : ℤ)

theorem signedDecimal_toString (z : ℤ) : signedDecimal (toString z).toList = some z := by
  cases z with
  | ofNat n =>
    have hs : (toString (Int.ofNat n)).toList = (Nat.repr n).toList := rfl
    have hd := decimal_repr n
    rw [hs]
    cases hl : (Nat.repr n).toList with
    | nil => simp [hl,decimal] at hd
    | cons c cs =>
      have hc : c.isDigit := digit_of_mem_repr (n := n) (by simp [hl])
      have hm : c ≠ '-' := fun h => by simp [h] at hc
      have hp : c ≠ '+' := fun h => by simp [h] at hc
      rw [hl] at hd
      simp [signedDecimal,hm,hp,hd]
  | negSucc n =>
    have hs : (toString (Int.negSucc n)).toList = '-' :: (Nat.repr (n+1)).toList := by
      have hh : toString (Int.negSucc n) = "-" ++ Nat.repr (n+1) := rfl
      simp [hh]
    rw [hs,signedDecimal,decimal_repr]
    simp [Int.negSucc_eq]

end SeparatedText
end CoLinkServer
