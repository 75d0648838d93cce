import Mathlib.Data.Finset.Filter
import Mathlib.Data.Finset.Insert
import Mathlib.Data.List.Induction
import Mathlib.Logic.Function.Basic

/-! A message broker with one direct exchange: a message that is published under a key goes once to
every queue that is bound to this key. Queues, keys and messages may be of any type. -/
namespace CoLinkServer
namespace DirectExchange

variable {Q K M : Type} [DecidableEq Q] [DecidableEq K]

/-- The queues that exist, with what they hold, and what they are bound to. -/
structure Exchange (Q K M : Type) where
  queues : Q → Option (List M)
  bindings : Finset (Q × K)

inductive Call (Q K M : Type)
  | declare (q : Q)
  | delete (q : Q)
  | bind (q : Q) (k : K)
  | publish (k : K) (m : M)

def Exchange.new : Exchange Q K M := ⟨fun _ => none,∅⟩

def perform (x : Exchange Q K M) : Call Q K M → Exchange Q K M
  | .declare q => { x with queues := Function.update x.queues q (some ((x.queues q).getD [])) }
  | .delete q => ⟨Function.update x.queues q none,x.bindings.filter fun b => b.1 ≠ q⟩
  | .bind q k => if (x.queues q).isSome then { x with bindings := insert (q,k) x.bindings } else x
  | .publish k m => { x with queues := fun q =>
      if (q,k) ∈ x.bindings then (x.queues q).map (· ++ [m]) else x.queues q }

def run (calls : List (Call Q K M)) : Exchange Q K M := calls.foldl perform .new

@[simp] theorem run_nil : (run [] : Exchange Q K M) = .new := rfl

@[simp] theorem run_concat (calls : List (Call Q K M)) (c : Call Q K M) :
    run (calls ++ [c]) = perform (run calls) c := by
  rw [run,List.foldl_concat]
  rfl

/-- Only existing queues are bound. -/
theorem exists_of_bound (calls : List (Call Q K M)) {q : Q} {k : K}
    (h : (q,k) ∈ (run calls).bindings) : ((run calls).queues q).isSome := by
  induction calls using List.reverseRecOn with
  | nil => simp [Exchange.new] at h
  | append_singleton calls c ih =>
    rw [run_concat] at h ⊢
    cases c with
    | declare q' =>
      by_cases hq : q = q'
      · simp [perform,hq]
      · simpa [perform,hq] using ih h
    | delete q' =>
      obtain ⟨hb,hne⟩ := Finset.mem_filter.mp h
      simpa [perform,show q ≠ q' from hne] using ih hb
    | bind q' k' =>
      simp only [perform] at h ⊢
      split_ifs at h ⊢ with hq'
      · rcases Finset.mem_insert.mp h with he | hb
        · rw [(Prod.mk.inj he).1]
          exact hq'
        · exact ih hb
      · exact ih h
    | publish k' m =>
      simp only [perform]
      split_ifs <;> simpa using ih h

/-- A queue is bound to a key by a call that is made while it exists and is not followed by its
removal. -/
theorem mem_bindings_iff (calls : List (Call Q K M)) (q : Q) (k : K) :
    (q,k) ∈ (run calls).bindings ↔ ∃ before after, calls = before ++ .bind q k :: after ∧
      ((run before).queues q).isSome ∧ .delete q ∉ after := by
  induction calls using List.reverseRecOn with
  | nil => simp [Exchange.new]
  | append_singleton calls c ih =>
    have hlast : (∃ before after, calls ++ [c] = before ++ .bind q k :: after ∧
        ((run before).queues q).isSome ∧ .delete q ∉ after) ↔
        (c = .bind q k ∧ ((run calls).queues q).isSome) ∨
          ((q,k) ∈ (run calls).bindings ∧ c ≠ .delete q) := by
      constructor
      · rintro ⟨before,after,he,hq,hd⟩
        cases after using List.reverseRecOn with
        | nil =>
          obtain ⟨rfl,hc⟩ := List.append_inj' he rfl
          exact .inl ⟨List.singleton_inj.mp hc,hq⟩
        | append_singleton after c' =>
          rw [← List.cons_append,← List.append_assoc] at he
          obtain ⟨hcalls,hc⟩ := List.append_inj' he rfl
          obtain rfl := List.singleton_inj.mp hc
          simp only [List.mem_append,List.mem_singleton,not_or] at hd
          exact .inr ⟨ih.mpr ⟨before,after,hcalls,hq,hd.1⟩,Ne.symm hd.2⟩
      · rintro (⟨rfl,hq⟩ | ⟨hb,hc⟩)
        · exact ⟨calls,[],rfl,hq,by simp⟩
        · obtain ⟨before,after,rfl,hq,hd⟩ := ih.mp hb
          exact ⟨before,after ++ [c],by simp,hq,by simp [hd,Ne.symm hc]⟩
    rw [hlast,run_concat]
    cases c with
    | declare q' => simp [perform]
    | delete q' =>
      simp only [perform,Finset.mem_filter,reduceCtorEq,false_and,false_or,ne_eq,Call.delete.injEq]
      exact and_congr_right fun _ => not_congr eq_comm
    | bind q' k' =>
      simp only [perform]
      split_ifs with hq'
      · simp only [Finset.mem_insert,Prod.mk.injEq,Call.bind.injEq,ne_eq,reduceCtorEq,not_false_eq_true,
          and_true]
        refine or_congr_left ⟨?_,?_⟩
        · rintro ⟨rfl,rfl⟩
          exact ⟨⟨rfl,rfl⟩,hq'⟩
        · rintro ⟨⟨rfl,rfl⟩,-⟩
          exact ⟨rfl,rfl⟩
      · simp only [Call.bind.injEq,ne_eq,reduceCtorEq,not_false_eq_true,and_true]
        refine ⟨.inr,?_⟩
        rintro (⟨⟨rfl,rfl⟩,hq⟩ | hb)
        · exact absurd hq hq'
        · exact hb
    | publish k' m => simp [perform]

section Record

variable {A : Type} {f : A → Option (Call Q K M)} {q : Q}

/-- The exchange after a record, whose newest entry comes first and some of whose entries are calls. -/
def after (f : A → Option (Call Q K M)) (h : List A) : Exchange Q K M := run (h.reverse.filterMap f)

def Exchange.held (x : Exchange Q K M) (q : Q) : List M := (x.queues q).getD []

theorem after_cons (a : A) (h : List A) :
    after f (a :: h) = (f a).elim (after f h) (perform (after f h)) := by
  cases hc : f a <;> simp [after,hc]

/-- The entry of a record that puts the message into the queue. -/
def Reaches (f : A → Option (Call Q K M)) (q : Q) (m : M) (a : A) (past : List A) : Prop :=
  ∃ k, f a = some (.publish k m) ∧ (q,k) ∈ (after f past).bindings

theorem bind_of_mem {h : List A} {k : K} (hb : (q,k) ∈ (after f h).bindings) :
    ∃ a ∈ h, f a = some (.bind q k) := by
  obtain ⟨before,rest,he,-,-⟩ := (mem_bindings_iff _ q k).mp hb
  have hm : (.bind q k : Call Q K M) ∈ h.reverse.filterMap f := by
    rw [he]
    exact List.mem_append_right _ (List.mem_cons_self ..)
  obtain ⟨a,ha,hf⟩ := List.mem_filterMap.mp hm
  exact ⟨a,List.mem_reverse.mp ha,hf⟩

/-- The last call adds at most one message to a queue, and that at the end. -/
theorem held_cons (a : A) (h : List A) (q : Q) :
    List.Sublist ((after f (a :: h)).held q) ((after f h).held q) ∨
    ∃ m, Reaches f q m a h ∧ (after f (a :: h)).held q = (after f h).held q ++ [m] := by
  rw [after_cons]
  cases hc : f a with
  | none => exact .inl (List.Sublist.refl _)
  | some call =>
    cases call with
    | declare q' =>
      by_cases hq : q = q'
      · subst hq
        exact .inl (by simp [perform,Exchange.held])
      · exact .inl (by simp [perform,Exchange.held,hq])
    | delete q' =>
      by_cases hq : q = q'
      · subst hq
        exact .inl (by simp [perform,Exchange.held])
      · exact .inl (by simp [perform,Exchange.held,hq])
    | bind q' k =>
      refine .inl ?_
      simp only [Option.elim,perform]
      split_ifs <;> exact List.Sublist.refl _
    | publish k m =>
      by_cases hb : (q,k) ∈ (after f h).bindings
      · refine .inr ⟨m,⟨k,hc,hb⟩,?_⟩
        obtain ⟨held,hq⟩ := Option.isSome_iff_exists.mp (exists_of_bound _ hb)
        replace hq : (after f h).queues q = some held := hq
        simp [perform,Exchange.held,hb,hq]
      · exact .inl (by simp [perform,Exchange.held,hb])

theorem reaches_of_mem {h : List A} {m : M} (hm : m ∈ (after f h).held q) :
    ∃ a past, a :: past <:+ h ∧ Reaches f q m a past := by
  induction h with
  | nil => simp [after,Exchange.held,Exchange.new] at hm
  | cons a h ih =>
    have hold (hm : m ∈ (after f h).held q) : ∃ a' past, a' :: past <:+ a :: h ∧ Reaches f q m a' past := by
      obtain ⟨a',past,hs,hr⟩ := ih hm
      exact ⟨a',past,hs.trans (List.suffix_cons a h),hr⟩
    rcases held_cons (f := f) a h q with hsub | ⟨m',hr,he⟩
    · exact hold (hsub.subset hm)
    · rw [he] at hm
      rcases List.mem_append.mp hm with hm | hm
      · exact hold hm
      · obtain rfl := List.mem_singleton.mp hm
        exact ⟨a,h,List.suffix_rfl,hr⟩

theorem held_pairwise {R : M → M → Prop} {h : List A}
    (hR : ∀ a past a' past' m m', a :: past <:+ past' → a' :: past' <:+ h → Reaches f q m a past →
      Reaches f q m' a' past' → R m m') : ((after f h).held q).Pairwise R := by
  induction h with
  | nil => exact List.Pairwise.nil
  | cons a h ih =>
    have hold := ih fun a₁ past a₂ past' m m' hs hs' =>
      hR a₁ past a₂ past' m m' hs (hs'.trans (List.suffix_cons a h))
    rcases held_cons (f := f) a h q with hsub | ⟨m',hr,he⟩
    · exact hold.sublist hsub
    · rw [he]
      refine List.pairwise_append.mpr ⟨hold,List.pairwise_singleton ..,fun m hm m'' hm'' => ?_⟩
      obtain rfl := List.mem_singleton.mp hm''
      obtain ⟨a',past,hs,hr'⟩ := reaches_of_mem hm
      exact hR a' past a h m m'' hs List.suffix_rfl hr' hr

def received (f : A → Option (Call Q K M)) (q : Q) : List A → List M
  | [] => []
  | a :: past => received f q past ++ match f a with
    | some (.publish k m) => if (q,k) ∈ (after f past).bindings then [m] else []
    | _ => []

theorem bound_cons {a : A} {h : List A} {k : K} (ha : f a ≠ some (.delete q))
    (hb : (q,k) ∈ (after f h).bindings) : (q,k) ∈ (after f (a :: h)).bindings := by
  rw [after_cons]
  cases hc : f a with
  | none => exact hb
  | some call =>
    cases call with
    | declare q' => exact hb
    | delete q' =>
      refine Finset.mem_filter.mpr ⟨hb,?_⟩
      rintro rfl
      exact ha hc
    | bind q' k' =>
      simp only [Option.elim,perform]
      split_ifs
      · exact Finset.mem_insert_of_mem hb
      · exact hb
    | publish k' m => exact hb

theorem exists_cons {a : A} {h : List A} (ha : f a ≠ some (.delete q))
    (hq : ((after f h).queues q).isSome) : ((after f (a :: h)).queues q).isSome := by
  rw [after_cons]
  cases hc : f a with
  | none => exact hq
  | some call =>
    cases call with
    | declare q' => by_cases he : q = q' <;> simp [perform,he,hq]
    | delete q' =>
      have hne : q ≠ q' := by
        rintro rfl
        exact ha hc
      simpa [perform,hne] using hq
    | bind q' k' =>
      simp only [Option.elim,perform]
      split_ifs <;> exact hq
    | publish k' m =>
      simp only [Option.elim,perform]
      split_ifs <;> simpa using hq

theorem exists_of_declare {a : A} {h : List A} (ha : f a = some (.declare q)) :
    ((after f (a :: h)).queues q).isSome := by
  simp [after_cons,ha,perform]

theorem bound_of_bind {a : A} {h : List A} {k : K} (ha : f a = some (.bind q k))
    (hq : ((after f h).queues q).isSome) : (q,k) ∈ (after f (a :: h)).bindings := by
  simp [after_cons,ha,perform,hq]

theorem bound_suffix {h h' : List A} {k : K} (hs : h <:+ h') (hd : ∀ a ∈ h', f a ≠ some (.delete q))
    (hb : (q,k) ∈ (after f h).bindings) : (q,k) ∈ (after f h').bindings := by
  obtain ⟨later,rfl⟩ := hs
  induction later with
  | nil => exact hb
  | cons a later ih =>
    exact bound_cons (hd a (List.mem_cons_self ..)) (ih fun b hm => hd b (List.mem_cons_of_mem _ hm))

theorem exists_suffix {h h' : List A} (hs : h <:+ h') (hd : ∀ a ∈ h', f a ≠ some (.delete q))
    (hq : ((after f h).queues q).isSome) : ((after f h').queues q).isSome := by
  obtain ⟨later,rfl⟩ := hs
  induction later with
  | nil => exact hq
  | cons a later ih =>
    exact exists_cons (hd a (List.mem_cons_self ..)) (ih fun b hm => hd b (List.mem_cons_of_mem _ hm))

/-- A queue that is never removed holds all it has received. -/
theorem held_eq_received {h : List A} (hd : ∀ a ∈ h, f a ≠ some (.delete q)) :
    (after f h).held q = received f q h := by
  induction h with
  | nil => rfl
  | cons a h ih =>
    have ih := ih fun b hm => hd b (List.mem_cons_of_mem _ hm)
    rw [received,← ih,after_cons]
    cases hc : f a with
    | none => simp
    | some call =>
      cases call with
      | declare q' => by_cases he : q = q' <;> simp [perform,Exchange.held,he]
      | delete q' =>
        have hne : q ≠ q' := by
          rintro rfl
          exact hd a (List.mem_cons_self ..) hc
        simp [perform,Exchange.held,hne]
      | bind q' k' =>
        simp only [Option.elim,perform,List.append_nil]
        split_ifs <;> rfl
      | publish k' m =>
        by_cases hb : (q,k') ∈ (after f h).bindings
        · obtain ⟨held,hq⟩ := Option.isSome_iff_exists.mp (exists_of_bound _ hb)
          replace hq : (after f h).queues q = some held := hq
          simp [perform,Exchange.held,hb,hq]
        · simp [perform,Exchange.held,hb]

/-- The message that an entry publishes under one of these keys. -/
def sends (f : A → Option (Call Q K M)) (keys : K → Bool) (a : A) : Option M :=
  match f a with
  | some (.publish k m) => if keys k then some m else none
  | _ => none

theorem received_append {keys : K → Bool} {later h : List A}
    (hb : ∀ rest, rest <:+ later → ∀ k, (q,k) ∈ (after f (rest ++ h)).bindings ↔ keys k) :
    received f q (later ++ h) = received f q h ++ later.reverse.filterMap (sends f keys) := by
  induction later with
  | nil => simp
  | cons a later ih =>
    have ih := ih fun rest hs => hb rest (hs.trans (List.suffix_cons ..))
    rw [List.cons_append,received,ih,List.reverse_cons,List.filterMap_append,List.append_assoc]
    congr 2
    simp only [sends,List.filterMap_cons,List.filterMap_nil]
    cases hc : f a with
    | none => rfl
    | some call =>
      cases call with
      | publish k m =>
        have hk := hb later (List.suffix_cons ..) k
        cases hkeys : keys k <;> simp [hk,hkeys]
      | _ => rfl

end Record

end DirectExchange
end CoLinkServer
