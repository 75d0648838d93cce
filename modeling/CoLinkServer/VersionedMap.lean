import Mathlib.Data.List.Induction
import Mathlib.Logic.Function.Basic

/-! A map that keeps its past: every value ever written stays readable under the key and the
time of its writing, and a key is live while it points to one of its versions. The content
is described twice, by the operations and by the sequence of changes made so far, and the
lemmas below read the first off the second. -/
namespace CoLinkServer

structure VersionedMap (κ τ ν : Type) where
  version : κ → τ → Option ν
  current : κ → Option τ

namespace VersionedMap

variable {κ τ ν : Type} [DecidableEq κ]

def empty : VersionedMap κ τ ν := ⟨fun _ _ => none,fun _ => none⟩

def delete (a : VersionedMap κ τ ν) (k : κ) : VersionedMap κ τ ν :=
  { a with current := Function.update a.current k none }

@[simp] theorem version_delete (a : VersionedMap κ τ ν) (k k' : κ) (t : τ) :
    (a.delete k).version k' t = a.version k' t := rfl
@[simp] theorem current_delete_self (a : VersionedMap κ τ ν) (k : κ) :
    (a.delete k).current k = none := by simp [delete]
theorem current_delete_of_ne (a : VersionedMap κ τ ν) {k k' : κ} (h : k' ≠ k) :
    (a.delete k).current k' = a.current k' := by simp [delete,h]

def Known (a : VersionedMap κ τ ν) (k : κ) : Prop := ∃ t, a.version k t ≠ none

@[simp] theorem known_delete {a : VersionedMap κ τ ν} {k k' : κ} :
    (a.delete k).Known k' ↔ a.Known k' := Iff.rfl

/-- A change that took place. -/
inductive Change (κ τ ν : Type)
  | write (k : κ) (t : τ) (v : ν)
  | delete (k : κ)

def Change.key : Change κ τ ν → κ
  | .write k _ _ => k
  | .delete k => k

def lastChange (cs : List (Change κ τ ν)) (k : κ) : Option (Change κ τ ν) :=
  (cs.filter fun c => c.key = k).getLast?

theorem lastChange_concat (cs : List (Change κ τ ν)) (c : Change κ τ ν) (k : κ) :
    lastChange (cs ++ [c]) k = if c.key = k then some c else lastChange cs k := by
  by_cases h : c.key = k <;> simp [lastChange,h]

theorem mem_of_lastChange {cs : List (Change κ τ ν)} {k : κ} {c : Change κ τ ν}
    (h : lastChange cs k = some c) : c ∈ cs ∧ c.key = k := by
  have hm := List.mem_filter.mp (List.mem_of_getLast? h)
  exact ⟨hm.1,by simpa using hm.2⟩

variable [DecidableEq τ]

def write (a : VersionedMap κ τ ν) (k : κ) (t : τ) (v : ν) : VersionedMap κ τ ν where
  version k' t' := if k' = k ∧ t' = t then some v else a.version k' t'
  current := Function.update a.current k (some t)

theorem version_write (a : VersionedMap κ τ ν) (k k' : κ) (t t' : τ) (v : ν) :
    (a.write k t v).version k' t' = if k' = k ∧ t' = t then some v else a.version k' t' := rfl
@[simp] theorem current_write_self (a : VersionedMap κ τ ν) (k : κ) (t : τ) (v : ν) :
    (a.write k t v).current k = some t := by simp [write]
theorem current_write_of_ne (a : VersionedMap κ τ ν) {k k' : κ} (h : k' ≠ k) (t : τ) (v : ν) :
    (a.write k t v).current k' = a.current k' := by simp [write,h]

theorem version_write_ne_none {a : VersionedMap κ τ ν} {k k' : κ} {t t' : τ} {v : ν} :
    (a.write k t v).version k' t' ≠ none ↔ (k' = k ∧ t' = t) ∨ a.version k' t' ≠ none := by
  rw [version_write]
  split_ifs with h <;> simp [h]

theorem known_write {a : VersionedMap κ τ ν} {k k' : κ} {t : τ} {v : ν} :
    (a.write k t v).Known k' ↔ k' = k ∨ a.Known k' := by
  simp only [Known,version_write_ne_none]
  constructor
  · rintro ⟨t',⟨h,-⟩ | h⟩
    · exact .inl h
    · exact .inr ⟨t',h⟩
  · rintro (h | ⟨t',h⟩)
    · exact ⟨t,.inl ⟨h,rfl⟩⟩
    · exact ⟨t',.inr h⟩

def apply (a : VersionedMap κ τ ν) : Change κ τ ν → VersionedMap κ τ ν
  | .write k t v => a.write k t v
  | .delete k => a.delete k

def replay (cs : List (Change κ τ ν)) : VersionedMap κ τ ν := cs.foldl apply empty

@[simp] theorem replay_nil : replay ([] : List (Change κ τ ν)) = empty := rfl
theorem replay_concat (cs : List (Change κ τ ν)) (c : Change κ τ ν) :
    replay (cs ++ [c]) = (replay cs).apply c := by simp [replay]

theorem current_replay (cs : List (Change κ τ ν)) (k : κ) (t : τ) :
    (replay cs).current k = some t ↔ ∃ v, lastChange cs k = some (.write k t v) := by
  induction cs using List.reverseRecOn with
  | nil => simp [lastChange,empty]
  | append_singleton cs c ih =>
    rw [replay_concat,lastChange_concat]
    cases c with
    | write k' t' v =>
      by_cases h : k' = k
      · subst h; simp [apply,Change.key,eq_comm]
      · rw [apply,current_write_of_ne _ (Ne.symm h),ih]; simp [Change.key,h]
    | delete k' =>
      by_cases h : k' = k
      · subst h; simp [apply,Change.key]
      · rw [apply,current_delete_of_ne _ (Ne.symm h),ih]; simp [Change.key,h]

/-- No two changes write the same key at the same time. -/
def TimesFresh (cs : List (Change κ τ ν)) : Prop :=
  cs.Pairwise fun c c' => ∀ k t v v', c = .write k t v → c' ≠ .write k t v'

theorem version_replay {cs : List (Change κ τ ν)} (h : TimesFresh cs) (k : κ) (t : τ) (v : ν) :
    (replay cs).version k t = some v ↔ .write k t v ∈ cs := by
  induction cs using List.reverseRecOn with
  | nil => simp [empty]
  | append_singleton cs c ih =>
    obtain ⟨hcs,-,hc⟩ := List.pairwise_append.mp h
    have ih := ih hcs
    rw [replay_concat,List.mem_append,List.mem_singleton]
    cases c with
    | delete k' => simpa [apply] using ih
    | write k' t' v' =>
      rw [apply,version_write]
      split_ifs with he
      · obtain ⟨rfl,rfl⟩ := he
        have hn : Change.write k t v ∉ cs := fun hm => hc _ hm _ (by simp) k t v v' rfl rfl
        simp [hn,eq_comm]
      · rw [ih]
        simp only [Change.write.injEq,iff_self_or]
        rintro ⟨rfl,rfl,-⟩
        exact absurd ⟨rfl,rfl⟩ he

end VersionedMap

end CoLinkServer
