import CoLinkServer.SeparatedText
import Mathlib.Algebra.Group.Int.Defs
import Mathlib.Data.Int.Notation

/-! The strings under which the storage keeps its entries:
`{user_id}::{key_name}@{timestamp}`, its parts, and the prefixes that index a directory. -/
namespace CoLinkServer

open SeparatedText

def NoColon (s : String) : Prop := ':' ∉ s.toList

instance (s : String) : Decidable (NoColon s) := inferInstanceAs (Decidable (_ ∉ _))

/-- `str::rfind` of a character, with the text before and after it. -/
def rsplit (c : Char) (s : String) : Option (String × String) :=
  (splitLast c s.toList).map fun (a,b) => (.ofList a,.ofList b)

theorem rsplit_eq_some {c : Char} {s a b : String} :
    rsplit c s = some (a,b) ↔ s = a ++ String.singleton c ++ b ∧ c ∉ b.toList := by
  rw [← String.toList_inj]
  simp only [rsplit,Option.map_eq_some_iff,Prod.exists,Prod.mk.injEq,splitLast_eq_some,
    String.toList_append,String.toList_singleton,List.append_assoc,List.singleton_append]
  constructor
  · rintro ⟨x,y,⟨hs,hy⟩,rfl,rfl⟩
    simpa using ⟨hs,hy⟩
  · rintro ⟨hs,hb⟩
    exact ⟨a.toList,b.toList,⟨hs,hb⟩,by simp,by simp⟩

theorem rsplit_eq_none {c : Char} {s : String} : rsplit c s = none ↔ c ∉ s.toList := by
  simp [rsplit,splitLast_eq_none]

def userIdKeyName (userId keyName : String) : String := userId ++ "::" ++ keyName

def atTimestamp (userIdKeyName : String) (timestamp : ℤ) : String :=
  userIdKeyName ++ "@" ++ toString timestamp

def keyPath (userId keyName : String) (timestamp : ℤ) : String :=
  userId ++ "::" ++ keyName ++ "@" ++ toString timestamp

theorem atTimestamp_userIdKeyName (userId keyName : String) (timestamp : ℤ) :
    atTimestamp (userIdKeyName userId keyName) timestamp = keyPath userId keyName timestamp := rfl

/-- `str::parse::<i64>`. -/
def parseI64 (s : String) : Option ℤ :=
  (signedDecimal s.toList).filter fun n => -2 ^ 63 ≤ n ∧ n < 2 ^ 63

theorem parseI64_toString {t : ℤ} (hlo : -2 ^ 63 ≤ t) (hhi : t < 2 ^ 63) :
    parseI64 (toString t) = some t := by
  rw [parseI64,signedDecimal_toString,Option.filter_some,if_pos (by simpa using ⟨hlo,hhi⟩)]

/-- The part of a key path before the last `@`; `none` where the source panics. -/
def getUserIdKeyName (keyPath : String) : Option String := (rsplit '@' keyPath).map (·.1)

def getTimestamp (keyPath : String) : Option ℤ :=
  (rsplit '@' keyPath).bind fun parts => parseI64 parts.2

theorem rsplit_atTimestamp (x : String) (t : ℤ) :
    rsplit '@' (atTimestamp x t) = some (x,toString t) :=
  rsplit_eq_some.mpr ⟨by rw [atTimestamp]; rfl,not_mem_int_toString (by decide) (by decide)⟩

theorem getUserIdKeyName_atTimestamp (x : String) (t : ℤ) :
    getUserIdKeyName (atTimestamp x t) = some x := by
  simp [getUserIdKeyName,rsplit_atTimestamp]

theorem getTimestamp_atTimestamp (x : String) {t : ℤ} (hlo : -2 ^ 63 ≤ t) (hhi : t < 2 ^ 63) :
    getTimestamp (atTimestamp x t) = some t := by
  rw [getTimestamp,rsplit_atTimestamp,Option.bind_some,parseI64_toString hlo hhi]

/-- The longest prefix of the key that ends in a colon. -/
def getPrefix (key : String) : String :=
  match rsplit ':' key with
  | none => ""
  | some (pos,_) => pos ++ ":"

theorem userIdKeyName_inj {u u' k k' : String} (hu : NoColon u) (hu' : NoColon u') :
    userIdKeyName u k = userIdKeyName u' k' ↔ u = u' ∧ k = k' := by
  have h : (userIdKeyName u k = userIdKeyName u' k') ↔
      u.toList ++ ':' :: (':' :: k.toList) = u'.toList ++ ':' :: (':' :: k'.toList) := by
    rw [← String.toList_inj]; simp [userIdKeyName]
  rw [h,first_sep_inj hu hu',List.cons_inj_right,String.toList_inj,String.toList_inj]

theorem atTimestamp_inj {x x' : String} {t t' : ℤ} :
    atTimestamp x t = atTimestamp x' t' ↔ x = x' ∧ t = t' := by
  have hd (z : ℤ) : '@' ∉ (toString z).toList := not_mem_int_toString (by decide) (by decide)
  have h : (atTimestamp x t = atTimestamp x' t') ↔ x.toList ++ '@' :: (toString t).toList =
      x'.toList ++ '@' :: (toString t').toList := by
    rw [← String.toList_inj]; simp [atTimestamp]
  rw [h,last_sep_inj (hd t) (hd t'),String.toList_inj,String.toList_inj,int_toString_inj]

theorem keyPath_inj {u u' k k' : String} {t t' : ℤ} (hu : NoColon u) (hu' : NoColon u') :
    keyPath u k t = keyPath u' k' t' ↔ u = u' ∧ k = k' ∧ t = t' := by
  rw [← atTimestamp_userIdKeyName,← atTimestamp_userIdKeyName,atTimestamp_inj,
    userIdKeyName_inj hu hu',and_assoc]

theorem getPrefix_append (k : String) : ∃ s, NoColon s ∧ k = getPrefix k ++ s := by
  cases h : rsplit ':' k with
  | none => exact ⟨k,rsplit_eq_none.mp h,by simp [getPrefix,h]⟩
  | some p =>
    obtain ⟨a,b⟩ := p
    obtain ⟨rfl,hb⟩ := rsplit_eq_some.mp h
    exact ⟨b,hb,by simp only [getPrefix,h]; rfl⟩

theorem userIdKeyName_getPrefix (u k : String) :
    ∃ q, userIdKeyName u (getPrefix k) = q ++ ":" := by
  cases h : rsplit ':' k with
  | none => exact ⟨u ++ ":",by simp only [getPrefix,h,userIdKeyName]; simp [String.append_assoc]⟩
  | some p =>
    exact ⟨userIdKeyName u p.1,by simp only [getPrefix,h,userIdKeyName,String.append_assoc]⟩

theorem getPrefix_eq_iff {u k p : String} :
    userIdKeyName u (getPrefix k) = p ++ ":" ↔
      ∃ s, NoColon s ∧ userIdKeyName u k = p ++ ":" ++ s := by
  obtain ⟨s,hs,hk⟩ := getPrefix_append k
  obtain ⟨q,hq⟩ := userIdKeyName_getPrefix u k
  have hu : userIdKeyName u k = q ++ ":" ++ s := by
    rw [← hq]
    nth_rewrite 1 [hk]
    simp [userIdKeyName,String.append_assoc]
  constructor
  · intro h
    exact ⟨s,hs,by rw [hu,← hq,h]⟩
  · rintro ⟨s',hs',he⟩
    have hl : q.toList ++ ':' :: s.toList = p.toList ++ ':' :: s'.toList := by
      have := congrArg String.toList (hu.symm.trans he)
      simpa using this
    rw [hq,String.toList_inj.mp ((last_sep_inj hs hs').mp hl).1]

end CoLinkServer
