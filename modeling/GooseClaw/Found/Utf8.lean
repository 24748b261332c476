import Mathlib.Algebra.GroupWithZero.Nat
import Mathlib.Data.List.Basic

/-!
# Byte strings of text

A string's bytes are its UTF-8 encoding, `utf8`. Three facts carry every argument about encoded
text: `utf8_append` (encoding is a homomorphism), `utf8_inj` (it loses nothing), and
`utf8_eq_append_cons` (an ASCII byte in the encoding is that ASCII character of the text, so
cutting the bytes there cuts the text there).

The rest is about separators in byte strings. A separator that does not occur in the left part is
found where it was put (`append_cons_cases`, `append_cons_inj`); one of two different elements is, where
neither part holds it (`append_pair_cases`); two texts joined once by one separator and once by
another, which begin differently, come apart again (`joined_twice_inj`).
-/

namespace Found

/-! ## Encoding -/

/-- The UTF-8 bytes of a string. -/
def utf8 (s : String) : List UInt8 := s.toByteArray.data.toList

theorem utf8_inj {s t : String} : utf8 s = utf8 t ↔ s = t := by
  unfold utf8
  rw [Array.toList_inj, ← ByteArray.ext_iff, String.toByteArray_inj]

@[simp] theorem utf8_append (s t : String) : utf8 (s ++ t) = utf8 s ++ utf8 t := by
  simp only [utf8, String.toByteArray_append, ByteArray.data_append, Array.toList_append]

/-- The bytes of a list of characters are the characters' encodings in order. -/
theorem utf8_ofList (l : List Char) :
    utf8 (String.ofList l) = l.flatMap String.utf8EncodeChar := by
  simp only [utf8, String.toByteArray_ofList, List.utf8Encode, List.toList_data_toByteArray]

theorem utf8_eq_flatMap (s : String) : utf8 s = s.toList.flatMap String.utf8EncodeChar := by
  rw [← utf8_ofList, String.ofList_toList]

/-- A text has as many bytes as its characters take. -/
theorem utf8_length (s : String) : (utf8 s).length = (s.toList.map Char.utf8Size).sum := by
  simp only [utf8_eq_flatMap, List.length_flatMap, String.length_utf8EncodeChar]

/-- The text that bytes are the encoding of, if they are one. -/
def decodeUtf8 (bytes : List UInt8) : Option String := String.fromUTF8? ⟨bytes.toArray⟩

/-- Decoding takes back encoding, and accepts nothing else. -/
theorem decodeUtf8_eq_some {bytes : List UInt8} {s : String} :
    decodeUtf8 bytes = some s ↔ utf8 s = bytes := by
  unfold decodeUtf8 String.fromUTF8?
  constructor
  · intro h
    split at h
    · cases h
      rfl
    · cases h
  · rintro rfl
    have hvalid : ByteArray.IsValidUTF8 ⟨(utf8 s).toArray⟩ := s.isValidUTF8
    rw [dif_pos hvalid]
    rfl

@[simp] theorem decodeUtf8_utf8 (s : String) : decodeUtf8 (utf8 s) = some s :=
  decodeUtf8_eq_some.mpr rfl

/-- **Encoded text begins with encoded text only when the text does.** -/
theorem prefix_of_utf8_append {s t : String} {bytes : List UInt8}
    (h : utf8 s ++ bytes = utf8 t) : s.toList <+: t.toList := by
  apply List.isPrefix_of_utf8Encode_append_eq_utf8Encode ⟨bytes.toArray⟩
  rw [String.utf8Encode_toList, String.utf8Encode_toList]
  apply ByteArray.ext
  rw [← Array.toList_inj, ByteArray.data_append, Array.toList_append]
  exact h

/-- The byte of an ASCII character. -/
def asciiByte (c : Char) : UInt8 := UInt8.ofNat c.toNat

theorem utf8EncodeChar_ascii {c : Char} (h : c.toNat < 128) :
    String.utf8EncodeChar c = [asciiByte c] := by
  have hv : c.val.toNat ≤ 127 := Nat.le_of_lt_succ h
  unfold String.utf8EncodeChar
  exact if_pos hv

/-- The bytes of a character outside ASCII are all at least 128. -/
theorem byte_of_not_ascii {c : Char} (h : ¬ c.toNat < 128) {b : UInt8}
    (hb : b ∈ String.utf8EncodeChar c) : 128 ≤ b.toNat := by
  have hv : ¬ c.val.toNat ≤ 0x7f := fun hle => h (Nat.lt_succ_of_le hle)
  unfold String.utf8EncodeChar at hb
  simp only [if_neg hv] at hb
  split at hb
  · simp only [List.mem_cons, List.not_mem_nil, or_false] at hb
    rcases hb with rfl | rfl <;> simp only [UInt8.toNat_ofNat'] <;> omega
  · split at hb
    · simp only [List.mem_cons, List.not_mem_nil, or_false] at hb
      rcases hb with rfl | rfl | rfl <;> simp only [UInt8.toNat_ofNat'] <;> omega
    · simp only [List.mem_cons, List.not_mem_nil, or_false] at hb
      rcases hb with rfl | rfl | rfl | rfl <;> simp only [UInt8.toNat_ofNat'] <;> omega

theorem asciiByte_toNat {a : Char} (ha : a.toNat < 128) : (asciiByte a).toNat = a.toNat := by
  simp only [asciiByte, UInt8.toNat_ofNat']
  omega

/-- An ASCII byte occurs in one character's encoding only when the character is that one. -/
theorem asciiByte_mem {a c : Char} (ha : a.toNat < 128)
    (h : asciiByte a ∈ String.utf8EncodeChar c) : c = a := by
  by_cases hc : c.toNat < 128
  · rw [utf8EncodeChar_ascii hc, List.mem_singleton] at h
    have hn : a.toNat = c.toNat := by
      rw [← asciiByte_toNat ha, ← asciiByte_toNat hc, h]
    exact Char.ext (UInt32.toNat_inj.mp hn.symm)
  · have hbyte := byte_of_not_ascii hc h
    rw [asciiByte_toNat ha] at hbyte
    omega

/-- Cutting encoded characters at an ASCII byte cuts the characters there. -/
theorem flatMap_encode_eq_append_cons {a : Char} (ha : a.toNat < 128) {l : List Char}
    {u w : List UInt8} (h : l.flatMap String.utf8EncodeChar = u ++ asciiByte a :: w) :
    ∃ l₁ l₂, l = l₁ ++ a :: l₂ ∧ l₁.flatMap String.utf8EncodeChar = u ∧
      l₂.flatMap String.utf8EncodeChar = w := by
  induction l generalizing u with
  | nil => simp at h
  | cons c l ih =>
    rw [List.flatMap_cons] at h
    rcases List.append_eq_append_iff.mp h with ⟨as, hu, hrest⟩ | ⟨cs, hc, hrest⟩
    · -- the cut lies behind the first character
      obtain ⟨l₁, l₂, rfl, rfl, rfl⟩ := ih hrest
      exact ⟨c :: l₁, l₂, rfl, by rw [hu, List.flatMap_cons], rfl⟩
    · cases cs with
      | nil =>
        rw [List.append_nil] at hc
        rw [List.nil_append] at hrest
        obtain ⟨l₁, l₂, rfl, h₁, rfl⟩ := ih (u := []) hrest.symm
        refine ⟨c :: l₁, l₂, rfl, ?_, rfl⟩
        rw [List.flatMap_cons, h₁, List.append_nil, hc]
      | cons b cs =>
        -- the cut lies in the first character, which is therefore the ASCII one
        obtain ⟨rfl, hw⟩ := List.cons.inj hrest
        have hmem : asciiByte a ∈ String.utf8EncodeChar c := by
          rw [hc]
          exact List.mem_append_right _ List.mem_cons_self
        obtain rfl := asciiByte_mem ha hmem
        rw [utf8EncodeChar_ascii ha] at hc
        cases u with
        | nil =>
          obtain ⟨-, rfl⟩ := List.cons.inj hc
          exact ⟨[], l, rfl, rfl, hw.symm⟩
        | cons _ u => simp at hc

/-- **An ASCII byte in encoded text is that character of the text**: the bytes on its two sides are
the encodings of the text on its two sides. -/
theorem utf8_eq_append_cons {a : Char} (ha : a.toNat < 128) {s : String} {u w : List UInt8}
    (h : utf8 s = u ++ asciiByte a :: w) :
    ∃ s₁ s₂ : String, s.toList = s₁.toList ++ a :: s₂.toList ∧ utf8 s₁ = u ∧ utf8 s₂ = w := by
  rw [utf8_eq_flatMap] at h
  obtain ⟨l₁, l₂, hl, h₁, h₂⟩ := flatMap_encode_eq_append_cons ha h
  refine ⟨String.ofList l₁, String.ofList l₂, ?_, ?_, ?_⟩
  · rw [String.toList_ofList, String.toList_ofList, hl]
  · rw [utf8_ofList, h₁]
  · rw [utf8_ofList, h₂]

/-- A character that is not in the text has no byte in its encoding, when it is ASCII. -/
theorem asciiByte_not_mem_utf8 {a : Char} (ha : a.toNat < 128) {s : String}
    (h : a ∉ s.toList) : asciiByte a ∉ utf8 s := by
  intro hmem
  obtain ⟨u, w, hsplit⟩ := List.append_of_mem hmem
  obtain ⟨s₁, s₂, hl, -, -⟩ := utf8_eq_append_cons ha hsplit
  exact h (hl ▸ List.mem_append_right _ List.mem_cons_self)

/-! ## Separators -/

variable {α : Type*}

/-- Two cuts at one separator, where the second left part is free of it: they are the same cut, or
the first lies further right. -/
theorem append_cons_cases {s : α} {x y u v : List α} (h : x ++ s :: y = u ++ s :: v)
    (hu : s ∉ u) : (x = u ∧ y = v) ∨ ∃ w, x = u ++ s :: w ∧ v = w ++ s :: y := by
  rcases List.append_eq_append_iff.mp h with ⟨as, hu', hrest⟩ | ⟨cs, hx, hrest⟩
  · cases as with
    | nil =>
      rw [List.append_nil] at hu'
      rw [List.nil_append] at hrest
      exact .inl ⟨hu'.symm, (List.cons.inj hrest).2⟩
    | cons a as =>
      obtain ⟨rfl, -⟩ := List.cons.inj hrest
      exact absurd (hu' ▸ List.mem_append_right _ List.mem_cons_self) hu
  · cases cs with
    | nil =>
      rw [List.append_nil] at hx
      rw [List.nil_append] at hrest
      exact .inl ⟨hx, (List.cons.inj hrest).2.symm⟩
    | cons c cs =>
      obtain ⟨rfl, hv⟩ := List.cons.inj hrest
      exact .inr ⟨cs, hx, hv⟩

/-- Left parts free of the separator are found again. -/
theorem append_cons_inj {s : α} {x y u v : List α} (h : x ++ s :: y = u ++ s :: v)
    (hx : s ∉ x) (hu : s ∉ u) : x = u ∧ y = v := by
  rcases append_cons_cases h hu with heq | ⟨w, rfl, -⟩
  · exact heq
  · exact absurd (List.mem_append_right _ List.mem_cons_self) hx

private theorem append_pair_shift {a b : α} (hab : a ≠ b) {t y v : List α}
    (h : a :: b :: y = t ++ a :: b :: v) : t = [] ∨ ∃ w, t = a :: b :: w ∧ y = w ++ a :: b :: v := by
  cases t with
  | nil => exact .inl rfl
  | cons c t =>
    rw [List.cons_append] at h
    obtain ⟨rfl, hrest⟩ := List.cons.inj h
    cases t with
    | nil => exact absurd (List.cons.inj hrest).1.symm hab
    | cons c t =>
      rw [List.cons_append] at hrest
      obtain ⟨rfl, hy⟩ := List.cons.inj hrest
      exact .inr ⟨t, rfl, hy⟩

/-- Two cuts at one separator of two different elements: they are the same cut, or the left part of one
holds the separator, and the right part of the other. -/
theorem append_pair_cases {a b : α} (hab : a ≠ b) {x y u v : List α}
    (h : x ++ a :: b :: y = u ++ a :: b :: v) :
    (x = u ∧ y = v) ∨ (∃ w, x = u ++ a :: b :: w ∧ v = w ++ a :: b :: y) ∨
      ∃ w, u = x ++ a :: b :: w ∧ y = w ++ a :: b :: v := by
  rcases List.append_eq_append_iff.mp h with ⟨t, rfl, hrest⟩ | ⟨t, rfl, hrest⟩
  · rcases append_pair_shift hab hrest with rfl | ⟨w, rfl, hy⟩
    · simp only [List.nil_append, List.cons.injEq, true_and] at hrest
      exact .inl ⟨(List.append_nil x).symm, hrest⟩
    · exact .inr (.inr ⟨w, rfl, hy⟩)
  · rcases append_pair_shift hab hrest with rfl | ⟨w, rfl, hv⟩
    · simp only [List.nil_append, List.cons.injEq, true_and] at hrest
      exact .inl ⟨List.append_nil u, hrest.symm⟩
    · exact .inr (.inl ⟨w, rfl, hv⟩)

private theorem joined_twice_shift {a b : α} (hab : a ≠ b) {p q x y t y' : List α}
    (h₁ : x ++ a :: p ++ y = (x ++ t) ++ a :: p ++ y')
    (h₂ : x ++ b :: q ++ y = (x ++ t) ++ b :: q ++ y') : t = [] := by
  cases t with
  | nil => rfl
  | cons c t =>
    simp only [List.append_assoc, List.append_cancel_left_eq, List.cons_append] at h₁ h₂
    exact absurd ((List.cons.inj h₁).1.trans (List.cons.inj h₂).1.symm) hab

/-- **Two texts joined twice come apart**: joined once by a separator that begins with `a` and once
by one that begins with `b ≠ a`, whatever the texts contain. At the offset where the shorter left
text ends, the longer one would have to hold both `a` and `b`. -/
theorem joined_twice_inj {a b : α} (hab : a ≠ b) {p q x y x' y' : List α}
    (h₁ : x ++ a :: p ++ y = x' ++ a :: p ++ y')
    (h₂ : x ++ b :: q ++ y = x' ++ b :: q ++ y') : x = x' ∧ y = y' := by
  have hx : x = x' := by
    have hpre := h₁
    simp only [List.append_assoc] at hpre
    rcases List.append_eq_append_iff.mp hpre with ⟨t, rfl, -⟩ | ⟨t, rfl, -⟩
    · rw [joined_twice_shift hab h₁ h₂, List.append_nil]
    · rw [joined_twice_shift hab h₁.symm h₂.symm, List.append_nil]
  subst hx
  refine ⟨rfl, ?_⟩
  simpa only [List.append_assoc, List.append_cancel_left_eq] using h₁

end Found
