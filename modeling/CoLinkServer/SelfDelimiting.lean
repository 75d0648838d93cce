import Mathlib.Data.List.Basic
import Mathlib.Data.Nat.Notation
import Mathlib.Data.Int.Notation
import Mathlib.Tactic.SplitIfs

/-! Binary codes that know where they end. A code carries the proof that decoding gives back
what was encoded and leaves the bytes behind it alone, so codes can be put one after the
other and records can be assembled from the codes of their fields. -/
namespace CoLinkServer

abbrev Bytes := List UInt8

structure Code (α : Type) where
  enc : α → Bytes
  dec : Bytes → Option (α × Bytes)
  dec_enc : ∀ a rest, dec (enc a ++ rest) = some (a,rest)

namespace Code

variable {α β : Type}

def byte : Code UInt8 where
  enc b := [b]
  dec
    | [] => none
    | b :: rest => some (b,rest)
  dec_enc _ _ := rfl

/-- Seven bits to a byte, the lowest first; the high bit says that more follow. -/
def encNat (n : ℕ) : Bytes :=
  if n < 128 then [.ofNat n] else .ofNat (n % 128 + 128) :: encNat (n / 128)
termination_by n

def decNat : Bytes → Option (ℕ × Bytes)
  | [] => none
  | b :: rest => if b.toNat < 128 then some (b.toNat,rest)
    else (decNat rest).map fun p => (b.toNat - 128 + 128 * p.1,p.2)

theorem decNat_encNat (n : ℕ) (rest : Bytes) : decNat (encNat n ++ rest) = some (n,rest) := by
  induction n using Nat.strongRecOn with
  | ind n ih =>
    rw [encNat]
    split_ifs with hn
    · have hb : (UInt8.ofNat n).toNat = n := by simp; omega
      rw [List.singleton_append,decNat,hb,if_pos hn]
    · have hb : (UInt8.ofNat (n % 128 + 128)).toNat = n % 128 + 128 := by simp; omega
      have hlt : ¬ n % 128 + 128 < 128 := by omega
      have hd : n % 128 + 128 - 128 + 128 * (n / 128) = n := by omega
      rw [List.cons_append,decNat,hb,if_neg hlt,ih (n / 128) (by omega),Option.map_some,hd]

def nat : Code ℕ := ⟨encNat,decNat,decNat_encNat⟩

def pair (c : Code α) (d : Code β) : Code (α × β) where
  enc p := c.enc p.1 ++ d.enc p.2
  dec bs := (c.dec bs).bind fun (a,bs) => (d.dec bs).map fun (b,bs) => ((a,b),bs)
  dec_enc p rest := by simp [List.append_assoc,c.dec_enc,d.dec_enc]

/-- A code for `β` from one for `α` that `β` embeds into. -/
def via (c : Code α) (f : β → α) (g : α → β) (h : ∀ b, g (f b) = b) : Code β where
  enc b := c.enc (f b)
  dec bs := (c.dec bs).map fun (a,bs) => (g a,bs)
  dec_enc b rest := by simp [c.dec_enc,h]

def decMany (c : Code α) : ℕ → Bytes → Option (List α × Bytes)
  | 0,bs => some ([],bs)
  | n+1,bs => (c.dec bs).bind fun (a,bs) => (decMany c n bs).map fun (as,bs) => (a :: as,bs)

theorem decMany_enc (c : Code α) (as : List α) (rest : Bytes) :
    c.decMany as.length (as.flatMap c.enc ++ rest) = some (as,rest) := by
  induction as with
  | nil => rfl
  | cons a as ih =>
    rw [List.length_cons,List.flatMap_cons,List.append_assoc,decMany,c.dec_enc]
    show Option.map _ (c.decMany as.length (as.flatMap c.enc ++ rest)) = _
    rw [ih,Option.map_some]

/-- A list is its length and its elements. -/
def list (c : Code α) : Code (List α) where
  enc as := encNat as.length ++ as.flatMap c.enc
  dec bs := (decNat bs).bind fun (n,bs) => c.decMany n bs
  dec_enc as rest := by
    rw [List.append_assoc,decNat_encNat]
    exact c.decMany_enc as rest

def bytes : Code Bytes := byte.list

def bool : Code Bool := nat.via (fun b => if b then 1 else 0) (· == 1) (by decide)

def int : Code ℤ := (bool.pair nat).via (fun z => (decide (0 ≤ z),z.natAbs))
  (fun p => if p.1 then p.2 else -p.2) (by
    intro z
    by_cases hz : 0 ≤ z
    · simpa only [hz,decide_true,if_true] using Int.natAbs_of_nonneg hz
    · simp only [hz,decide_false,Bool.false_eq_true,if_false]
      omega)

def string : Code String := nat.list.via (fun s => s.toList.map Char.toNat)
  (fun ns => .ofList (ns.map Char.ofNat)) (by intro s; simp [Function.comp_def])

def option (c : Code α) : Code (Option α) := c.list.via Option.toList List.head?
  (by intro a; cases a <;> rfl)

/-- A message behind a byte that says what kind it is of. -/
def tagged (c : Code α) (kind : UInt8) : Code α where
  enc a := kind :: c.enc a
  dec
    | [] => none
    | b :: bs => if b = kind then c.dec bs else none
  dec_enc a rest := by simp [c.dec_enc]

/-- Decoding a whole message: nothing may follow it. -/
def decode (c : Code α) (bs : Bytes) : Option α :=
  match c.dec bs with
  | some (a,[]) => some a
  | _ => none

theorem decode_enc (c : Code α) (a : α) : c.decode (c.enc a) = some a := by
  have h := c.dec_enc a []
  rw [List.append_nil] at h
  rw [decode,h]

theorem decode_tagged_of_ne (c : Code α) (d : Code β) {kind kind' : UInt8} (h : kind' ≠ kind)
    (b : β) : (c.tagged kind).decode ((d.tagged kind').enc b) = none := by
  simp [decode,tagged,h]

end Code
end CoLinkServer
