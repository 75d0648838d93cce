import CoLinkServer.SelfDelimiting
import Mathlib.Algebra.Group.Int.Defs
import Mathlib.Algebra.Group.Nat.Defs

/-! Messages as lists of numbered fields, each written as a key and a value, without an end mark.
A field knows where it ends, so the bytes of a message determine its fields; where one message ends
and the next one begins is not written down. -/
namespace CoLinkServer
namespace WireFormat

inductive FieldValue
  | varint (n : ℕ)
  | delimited (bs : Bytes)
deriving DecidableEq

structure Field where
  tag : ℕ
  value : FieldValue
deriving DecidableEq

/-- A field is its key, which holds the tag and the kind of the value, and its value. -/
def field : Code Field where
  enc f := match f.value with
    | .varint n => Code.encNat (8 * f.tag) ++ Code.encNat n
    | .delimited bs => Code.encNat (8 * f.tag + 2) ++ Code.bytes.enc bs
  dec bs := (Code.decNat bs).bind fun (key,bs) =>
    if key % 8 = 0 then (Code.decNat bs).map fun (n,bs) => (⟨key / 8,.varint n⟩,bs)
    else if key % 8 = 2 then
      (Code.bytes.dec bs).map fun (value,bs) => (⟨key / 8,.delimited value⟩,bs)
    else none
  dec_enc f rest := by
    obtain ⟨tag,value⟩ := f
    cases value with
    | varint n =>
      have htag : 8 * tag / 8 = tag := by omega
      simp [List.append_assoc,Code.decNat_encNat,htag]
    | delimited bs =>
      have htag : (8 * tag + 2) / 8 = tag := by omega
      simp [List.append_assoc,Code.decNat_encNat,Code.bytes.dec_enc,htag]

theorem flatMap_enc_inj {α : Type} (c : Code α) (hc : ∀ a, c.enc a ≠ []) {as bs : List α}
    (h : as.flatMap c.enc = bs.flatMap c.enc) : as = bs := by
  induction as generalizing bs with
  | nil =>
    cases bs with
    | nil => rfl
    | cons b bs => simp [hc b] at h
  | cons a as ih =>
    cases bs with
    | nil => simp [hc a] at h
    | cons b bs =>
      rw [List.flatMap_cons,List.flatMap_cons] at h
      have hd := congrArg c.dec h
      rw [c.dec_enc,c.dec_enc] at hd
      obtain ⟨rfl,hrest⟩ := Prod.mk.inj (Option.some.inj hd)
      rw [ih hrest]

theorem encNat_ne_nil (n : ℕ) : Code.encNat n ≠ [] := by
  rw [Code.encNat]
  split_ifs <;> simp

theorem field_enc_ne_nil (f : Field) : field.enc f ≠ [] := by
  obtain ⟨tag,value⟩ := f
  cases value <;> simp [field,encNat_ne_nil]

def encode (fields : List Field) : Bytes := fields.flatMap field.enc

theorem encode_append (fs gs : List Field) : encode (fs ++ gs) = encode fs ++ encode gs :=
  List.flatMap_append

theorem encode_inj {fs gs : List Field} : encode fs = encode gs ↔ fs = gs :=
  ⟨flatMap_enc_inj field field_enc_ne_nil,congrArg encode⟩

/-- A 64-bit number in two's complement. Numbers outside this range do not occur; they are kept
apart from those within. -/
def i64Code (z : ℤ) : ℕ :=
  if -2 ^ 63 ≤ z ∧ z < 2 ^ 63 then (z % 2 ^ 64).toNat else 2 ^ 64 + (if 0 ≤ z then 2 * z.natAbs
    else 2 * z.natAbs + 1)

def boolField (tag : ℕ) (b : Bool) : List Field := if b then [⟨tag,.varint 1⟩] else []

def intField (tag : ℕ) (z : ℤ) : List Field := if z = 0 then [] else [⟨tag,.varint (i64Code z)⟩]

def bytesField (tag : ℕ) (bs : Bytes) : List Field := if bs = [] then [] else [⟨tag,.delimited bs⟩]

def repeatedField (tag : ℕ) (bss : List Bytes) : List Field := bss.map fun bs => ⟨tag,.delimited bs⟩

theorem i64Code_inj {z z' : ℤ} (h : i64Code z = i64Code z') : z = z' := by
  unfold i64Code at h
  split_ifs at h <;> omega

theorem boolField_inj {tag : ℕ} {b b' : Bool} (h : boolField tag b = boolField tag b') : b = b' := by
  cases b <;> cases b' <;> simp_all [boolField]

theorem intField_inj {tag : ℕ} {z z' : ℤ} (h : intField tag z = intField tag z') : z = z' := by
  unfold intField at h
  split_ifs at h with hz hz'
  · rw [hz,hz']
  · exact i64Code_inj (FieldValue.varint.inj (Field.mk.inj (List.cons.inj h).1).2)

theorem bytesField_inj {tag : ℕ} {bs bs' : Bytes} (h : bytesField tag bs = bytesField tag bs') :
    bs = bs' := by
  unfold bytesField at h
  split_ifs at h with hb hb'
  · rw [hb,hb']
  · exact FieldValue.delimited.inj (Field.mk.inj (List.cons.inj h).1).2

theorem repeatedField_inj {tag : ℕ} {bss bss' : List Bytes}
    (h : repeatedField tag bss = repeatedField tag bss') : bss = bss' :=
  List.map_injective_iff.mpr (fun _ _ hf => FieldValue.delimited.inj (Field.mk.inj hf).2) h

def fieldsAt (tag : ℕ) (fs : List Field) : List Field := fs.filter fun f => f.tag = tag

section At

variable {tag tag' : ℕ}

@[simp] theorem fieldsAt_append (fs gs : List Field) :
    fieldsAt tag (fs ++ gs) = fieldsAt tag fs ++ fieldsAt tag gs := List.filter_append ..

theorem tag_boolField {b : Bool} {f : Field} (hf : f ∈ boolField tag b) : f.tag = tag := by
  cases b <;> simp_all [boolField]

theorem tag_intField {z : ℤ} {f : Field} (hf : f ∈ intField tag z) : f.tag = tag := by
  unfold intField at hf
  split_ifs at hf
  · cases hf
  · rw [List.mem_singleton.mp hf]

theorem tag_bytesField {bs : Bytes} {f : Field} (hf : f ∈ bytesField tag bs) : f.tag = tag := by
  unfold bytesField at hf
  split_ifs at hf
  · cases hf
  · rw [List.mem_singleton.mp hf]

theorem tag_repeatedField {bss : List Bytes} {f : Field} (hf : f ∈ repeatedField tag bss) :
    f.tag = tag := by
  obtain ⟨_,-,rfl⟩ := List.mem_map.mp hf
  rfl

theorem fieldsAt_self {fs : List Field} (h : ∀ f ∈ fs, f.tag = tag) : fieldsAt tag fs = fs :=
  List.filter_eq_self.mpr fun f hf => by simpa using h f hf

theorem fieldsAt_of_ne {fs : List Field} (h : ∀ f ∈ fs, f.tag = tag') (hne : tag' ≠ tag) :
    fieldsAt tag fs = [] :=
  List.filter_eq_nil_iff.mpr fun f hf => by simp [h f hf,hne]

@[simp] theorem fieldsAt_boolField (b : Bool) :
    fieldsAt tag (boolField tag' b) = if tag' = tag then boolField tag' b else [] := by
  split_ifs with h
  · exact h ▸ fieldsAt_self fun _ => tag_boolField
  · exact fieldsAt_of_ne (fun _ => tag_boolField) h

@[simp] theorem fieldsAt_intField (z : ℤ) :
    fieldsAt tag (intField tag' z) = if tag' = tag then intField tag' z else [] := by
  split_ifs with h
  · exact h ▸ fieldsAt_self fun _ => tag_intField
  · exact fieldsAt_of_ne (fun _ => tag_intField) h

@[simp] theorem fieldsAt_bytesField (bs : Bytes) :
    fieldsAt tag (bytesField tag' bs) = if tag' = tag then bytesField tag' bs else [] := by
  split_ifs with h
  · exact h ▸ fieldsAt_self fun _ => tag_bytesField
  · exact fieldsAt_of_ne (fun _ => tag_bytesField) h

@[simp] theorem fieldsAt_repeatedField (bss : List Bytes) :
    fieldsAt tag (repeatedField tag' bss) = if tag' = tag then repeatedField tag' bss else [] := by
  split_ifs with h
  · exact h ▸ fieldsAt_self fun _ => tag_repeatedField
  · exact fieldsAt_of_ne (fun _ => tag_repeatedField) h

end At

theorem pairwise_flatMap_tags (groups : List (ℕ × List Field))
    (htags : ∀ group ∈ groups, ∀ f ∈ group.2, f.tag = group.1)
    (horder : (groups.map Prod.fst).Pairwise (· ≤ ·)) :
    (groups.flatMap Prod.snd).Pairwise fun f g => f.tag ≤ g.tag := by
  rw [List.pairwise_flatMap]
  refine ⟨fun group hg => ?_,?_⟩
  · exact List.pairwise_of_forall_mem_list fun f hf g hg' =>
      Nat.le_of_eq ((htags _ hg f hf).trans (htags _ hg g hg').symm)
  · refine (List.pairwise_map.mp horder).imp_of_mem fun hg hg' hle f hf g hf' => ?_
    rwa [htags _ hg f hf,htags _ hg' g hf']

/-- Two messages one after the other are split in one way only, if the fields of the first come in
the order of their tags up to a tag that the second does not begin with or go beyond. -/
theorem append_inj_of_tags {limit : ℕ} {fs gs fs' gs' : List Field} (h : fs ++ gs = fs' ++ gs')
    (hfs : ∃ f ∈ fs, limit ≤ f.tag) (hfs' : ∃ f ∈ fs', limit ≤ f.tag)
    (horder : fs.Pairwise fun f g => f.tag ≤ g.tag) (horder' : fs'.Pairwise fun f g => f.tag ≤ g.tag)
    (hgs : ∃ g ∈ gs.head?, g.tag < limit) (hgs' : ∃ g ∈ gs'.head?, g.tag < limit) :
    fs = fs' ∧ gs = gs' := by
  have hlonger {fs gs fs' gs' : List Field} {e : Field} {es : List Field} (hfs : ∃ f ∈ fs, limit ≤ f.tag)
      (horder' : fs'.Pairwise fun f g => f.tag ≤ g.tag) (hgs : ∃ g ∈ gs.head?, g.tag < limit)
      (he : fs' = fs ++ e :: es) (hg : gs = (e :: es) ++ gs') : False := by
    obtain ⟨f,hf,hlimit⟩ := hfs
    obtain ⟨g,hg',hlt⟩ := hgs
    subst he hg
    obtain rfl : e = g := by simpa using hg'
    have hle := (List.pairwise_append.mp horder').2.2 f hf e (List.mem_cons_self ..)
    omega
  rcases List.append_eq_append_iff.mp h with ⟨es,he,hg⟩ | ⟨es,he,hg⟩
  · cases es with
    | nil => simp_all
    | cons e es => exact (hlonger hfs horder' hgs he hg).elim
  · cases es with
    | nil => simp_all
    | cons e es => exact (hlonger hfs' horder hgs' he hg).elim

end WireFormat
end CoLinkServer
