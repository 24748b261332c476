import Mathlib

/-!
# Lowercase text

What a full Unicode lowercase mapping does to text, as far as ASCII is concerned. An ASCII character
becomes one ASCII character. Any other becomes one or more characters outside ASCII, with two
exceptions of the Unicode data: the Kelvin sign becomes `k`, and `İ` becomes `i` and a combining dot.

`Lowers s l` says that `l` is a lowercase of `s` in this sense; it fixes no table, and leaves the
choice between the two small sigmas open. ASCII punctuation then stands in `l` exactly where it stands
in `s`, so cutting the lowercase at punctuation cuts the text there (`Lowers.cut`), and ASCII words are
found in `l` exactly when they are written in `s`, in any case of their letters
(`Lowers.of_prefix`, `Lowers.eq_iff`).
-/

namespace Found

/-! ## ASCII -/

/-- An ASCII character that is no letter. -/
def IsMark (a : Char) : Prop := a.toNat < 128 ∧ a.isAlpha = false

instance (a : Char) : Decidable (IsMark a) := inferInstanceAs (Decidable (_ ∧ _))

theorem toLower_of_not_alpha {c : Char} (h : c.isAlpha = false) : c.toLower = c := by
  apply Char.toLower_eq_of_not_isUpper
  simp only [Char.isAlpha, Bool.or_eq_false_iff] at h
  simp only [h.1, Bool.false_eq_true, not_false_eq_true]

/-- Only the mark itself is lowercased to a mark. -/
theorem toLower_eq_mark {a c : Char} (ha : IsMark a) : c.toLower = a ↔ c = a := by
  constructor
  · intro h
    have hc : c.isAlpha = false := by
      rw [← Char.isAlpha_toLower_eq_isAlpha, h]
      exact ha.2
    rw [← h, toLower_of_not_alpha hc]
  · rintro rfl
    exact toLower_of_not_alpha ha.2

theorem toNat_toLower_lt {c : Char} : c.toLower.toNat < 128 ↔ c.toNat < 128 := by
  by_cases h : c.isUpper = true
  · have hrange : 65 ≤ c.toNat ∧ c.toNat ≤ 90 := by
      simpa [Char.isUpper, UInt32.le_iff_toNat_le] using h
    have hvalid : (c.toNat + 32).isValidChar := .inl (by omega)
    rw [Char.toLower_eq_of_isUpper h, Char.toNat_ofNat, if_pos hvalid]
    omega
  · rw [Char.toLower_eq_of_not_isUpper h]

/-- A function that does not tell ASCII letters apart does not look at their case. -/
theorem apply_toLower {β : Type*} {p : Char → β} {b : β} (hp : ∀ c, c.isAlpha = true → p c = b)
    (c : Char) : p c.toLower = p c := by
  cases h : c.isAlpha with
  | true => rw [hp c h, hp _ (by rw [Char.isAlpha_toLower_eq_isAlpha, h])]
  | false => rw [toLower_of_not_alpha h]

theorem toNat_of_isAlpha {c : Char} (h : c.isAlpha = true) :
    (65 ≤ c.toNat ∧ c.toNat ≤ 90) ∨ (97 ≤ c.toNat ∧ c.toNat ≤ 122) := by
  simpa [Char.isAlpha, Char.isUpper, Char.isLower, UInt32.le_iff_toNat_le] using h

/-! ## Characters -/

/-- What one character may become. -/
inductive LowersTo : Char → List Char → Prop
  | ascii {c : Char} : c.toNat < 128 → LowersTo c [c.toLower]
  | other {c : Char} {piece : List Char} : ¬ c.toNat < 128 → piece ≠ [] →
      (∀ d ∈ piece, ¬ d.toNat < 128) → LowersTo c piece
  | kelvin : LowersTo '\u212a' ['k']
  | dottedI : LowersTo '\u0130' ['i', '\u0307']

theorem LowersTo.ne_nil {c : Char} {piece : List Char} (h : LowersTo c piece) : piece ≠ [] := by
  cases h with
  | other _ hne _ => exact hne
  | _ => exact List.cons_ne_nil _ _

/-- A mark comes from itself. -/
theorem LowersTo.mark_mem {a c : Char} {piece : List Char} (h : LowersTo c piece)
    (ha : IsMark a) : a ∈ piece ↔ c = a := by
  cases h with
  | ascii => rw [List.mem_singleton, eq_comm, toLower_eq_mark ha]
  | other hc _ hpiece =>
    constructor
    · intro hmem
      exact absurd ha.1 (hpiece a hmem)
    · rintro rfl
      exact absurd ha.1 hc
  | kelvin =>
    constructor
    · intro hmem
      rw [List.mem_singleton] at hmem
      subst hmem
      exact absurd ha.2 (by decide)
    · rintro rfl
      exact absurd ha.1 (by decide)
  | dottedI =>
    constructor
    · intro hmem
      rw [List.mem_cons, List.mem_singleton] at hmem
      rcases hmem with rfl | rfl
      · exact absurd ha.2 (by decide)
      · exact absurd ha.1 (by decide)
    · rintro rfl
      exact absurd ha.1 (by decide)

/-- A mark becomes itself. -/
theorem LowersTo.eq_of_mark {a : Char} {piece : List Char} (h : LowersTo a piece)
    (ha : IsMark a) : piece = [a] := by
  cases h with
  | ascii => rw [toLower_of_not_alpha ha.2]
  | other hc => exact absurd ha.1 hc
  | kelvin => exact absurd ha.1 (by decide)
  | dottedI => exact absurd ha.1 (by decide)

/-- An ASCII character becomes its ASCII lowercase. -/
theorem LowersTo.eq_of_ascii {c : Char} {piece : List Char} (h : LowersTo c piece)
    (hc : c.toNat < 128) : piece = [c.toLower] := by
  cases h with
  | ascii => rfl
  | other hn => exact absurd hc hn
  | kelvin => exact absurd hc (by decide)
  | dottedI => exact absurd hc (by decide)

/-! ## Text -/

/-- `l` is a lowercase of `s`: each character became one of the things it may become. -/
inductive Lowers : List Char → List Char → Prop
  | nil : Lowers [] []
  | cons {c : Char} {piece s l : List Char} : LowersTo c piece → Lowers s l →
      Lowers (c :: s) (piece ++ l)

namespace Lowers

variable {s l : List Char}

theorem eq_nil_iff (h : Lowers s l) : l = [] ↔ s = [] := by
  cases h with
  | nil => exact Iff.rfl
  | cons hc _ =>
    constructor
    · intro hnil
      exact absurd (List.append_eq_nil_iff.mp hnil).1 hc.ne_nil
    · nofun

/-- The lowercase of two texts in a row falls into theirs. -/
theorem of_append {s₁ s₂ l : List Char} (h : Lowers (s₁ ++ s₂) l) :
    ∃ l₁ l₂, l = l₁ ++ l₂ ∧ Lowers s₁ l₁ ∧ Lowers s₂ l₂ := by
  induction s₁ generalizing l with
  | nil => exact ⟨[], l, rfl, .nil, h⟩
  | cons c s₁ ih =>
    cases h with
    | cons hc hrest =>
      obtain ⟨l₁, l₂, rfl, h₁, h₂⟩ := ih hrest
      exact ⟨_ ++ l₁, l₂, (List.append_assoc _ _ _).symm, .cons hc h₁, h₂⟩

/-- A mark stands in the lowercase when it stands in the text. -/
theorem mark_mem {a : Char} (h : Lowers s l) (ha : IsMark a) : a ∈ l ↔ a ∈ s := by
  induction h with
  | nil => exact Iff.rfl
  | cons hc _ ih => rw [List.mem_append, List.mem_cons, hc.mark_mem ha, ih, eq_comm]

/-- The lowercase of a text with a mark, cut at the mark. -/
theorem of_append_mark {a : Char} {s₁ s₂ : List Char} (ha : IsMark a)
    (h : Lowers (s₁ ++ a :: s₂) l) :
    ∃ l₁ l₂, l = l₁ ++ a :: l₂ ∧ Lowers s₁ l₁ ∧ Lowers s₂ l₂ := by
  obtain ⟨l₁, l₂, rfl, h₁, h₂⟩ := h.of_append
  cases h₂ with
  | @cons _ piece _ l₂ hc hrest =>
    rw [hc.eq_of_mark ha]
    exact ⟨l₁, l₂, rfl, h₁, hrest⟩

/-- **Cutting the lowercase at a mark cuts the text there.** -/
theorem cut {a : Char} {x y : List Char} (ha : IsMark a) (h : Lowers s (x ++ a :: y)) :
    ∃ s₁ s₂, s = s₁ ++ a :: s₂ ∧ Lowers s₁ x ∧ Lowers s₂ y := by
  generalize hl : x ++ a :: y = l at h
  induction h generalizing x with
  | nil => exact absurd hl (List.append_ne_nil_of_right_ne_nil x (List.cons_ne_nil a y))
  | @cons c piece s l hc hrest ih =>
    rcases List.append_eq_append_iff.mp hl with ⟨m, rfl, hm⟩ | ⟨m, rfl, hm⟩
    · cases m with
      | nil =>
        -- the mark is the first character behind this one
        obtain ⟨s₁, s₂, rfl, h₁, h₂⟩ := ih (x := []) hm
        obtain rfl := h₁.eq_nil_iff.mp rfl
        rw [List.append_nil] at hc
        exact ⟨[c], s₂, rfl, List.append_nil x ▸ .cons hc .nil, h₂⟩
      | cons b m =>
        -- the mark lies in this character, which is therefore the mark
        obtain ⟨rfl, rfl⟩ := List.cons.inj hm
        obtain rfl := (hc.mark_mem ha).mp (List.mem_append_right x List.mem_cons_self)
        obtain ⟨hx, rfl⟩ : x = [] ∧ m = [] := by
          have hlen := congrArg List.length (hc.eq_of_mark ha)
          simp only [List.length_append, List.length_cons, List.length_nil] at hlen
          exact ⟨List.eq_nil_of_length_eq_zero (by omega), List.eq_nil_of_length_eq_zero (by omega)⟩
        exact ⟨[], s, rfl, hx ▸ .nil, hrest⟩
    · obtain ⟨s₁, s₂, rfl, h₁, h₂⟩ := ih hm.symm
      exact ⟨c :: s₁, s₂, rfl, .cons hc h₁, h₂⟩

/-- What stands before the first of some marks. -/
theorem takeWhile {p : Char → Bool} (hp : ∀ c, p c = true → IsMark c) (h : Lowers s l) :
    Lowers (s.takeWhile fun c => !p c) (l.takeWhile fun c => !p c) := by
  induction h with
  | nil => exact .nil
  | @cons c piece s l hc _ ih =>
    cases hpc : p c with
    | true =>
      rw [hc.eq_of_mark (hp c hpc), List.singleton_append]
      simp only [List.takeWhile_cons, hpc, Bool.not_true, Bool.false_eq_true, if_false]
      exact .nil
    | false =>
      have hpiece : ∀ d ∈ piece, (!p d) = true := by
        intro d hd
        cases hpd : p d with
        | false => rfl
        | true =>
          obtain rfl := (hc.mark_mem (hp d hpd)).mp hd
          rw [hpc] at hpd
          cases hpd
      rw [List.takeWhile_append_of_pos hpiece, List.takeWhile_cons, hpc]
      exact .cons hc ih

/-- The lowercase of ASCII text in front. -/
theorem of_ascii_append {s₁ s₂ : List Char} (hs : ∀ c ∈ s₁, c.toNat < 128)
    (h : Lowers (s₁ ++ s₂) l) : ∃ r, l = s₁.map Char.toLower ++ r ∧ Lowers s₂ r := by
  induction s₁ generalizing l with
  | nil => exact ⟨l, rfl, h⟩
  | cons c s₁ ih =>
    obtain ⟨hc, hs⟩ := List.forall_mem_cons.mp hs
    cases h with
    | cons hpiece hrest =>
      obtain ⟨r, rfl, h₂⟩ := ih hs hrest
      rw [hpiece.eq_of_ascii hc]
      exact ⟨r, rfl, h₂⟩

/-- **ASCII text in front of the lowercase is written in front of the text**, in some case. The
letters `i` and `k` are left out, since other characters may become these. -/
theorem of_prefix {pat r : List Char} (hpat : ∀ d ∈ pat, d.toNat < 128 ∧ d ≠ 'i' ∧ d ≠ 'k')
    (h : Lowers s (pat ++ r)) : ∃ s₁ s₂, s = s₁ ++ s₂ ∧ s₁.map Char.toLower = pat ∧ Lowers s₂ r := by
  induction pat generalizing s with
  | nil => exact ⟨[], s, rfl, rfl, h⟩
  | cons d pat ih =>
    obtain ⟨⟨hd, hi, hk⟩, hrest⟩ := List.forall_mem_cons.mp hpat
    generalize hl : d :: pat ++ r = l at h
    cases h with
    | nil => cases hl
    | @cons c piece s l hc hs =>
      cases hc with
      | ascii =>
        obtain ⟨rfl, rfl⟩ := List.cons.inj hl
        obtain ⟨s₁, s₂, rfl, rfl, h₂⟩ := ih hrest hs
        exact ⟨c :: s₁, s₂, rfl, rfl, h₂⟩
      | other _ hne hpiece =>
        cases piece with
        | nil => exact absurd rfl hne
        | cons b piece =>
          obtain ⟨rfl, -⟩ := List.cons.inj hl
          exact absurd hd (hpiece d List.mem_cons_self)
      | kelvin => exact absurd (List.cons.inj hl).1 hk
      | dottedI => exact absurd (List.cons.inj hl).1 hi

/-- **The lowercase is an ASCII text exactly when the text is that one**, in some case. The letter `k`
is left out, which the Kelvin sign becomes. -/
theorem eq_iff {pat : List Char} (hpat : ∀ d ∈ pat, d.toNat < 128 ∧ d ≠ 'k') (h : Lowers s l) :
    l = pat ↔ s.map Char.toLower = pat := by
  constructor
  · rintro rfl
    induction h with
    | nil => rfl
    | @cons c piece s l hc _ ih =>
      have hrest := ih fun d hd => hpat d (List.mem_append_right piece hd)
      have hfirst := fun d hd => hpat d (List.mem_append_left l hd)
      cases hc with
      | ascii => rw [List.map_cons, hrest, List.singleton_append]
      | @other _ piece _ hne hpiece =>
        obtain ⟨d, hd⟩ := List.exists_mem_of_ne_nil piece hne
        exact absurd (hfirst d hd).1 (hpiece d hd)
      | kelvin => exact absurd rfl (hfirst 'k' List.mem_cons_self).2
      | dottedI => exact absurd (hfirst '\u0307' (by decide)).1 (by decide)
  · intro hs
    have hascii : ∀ c ∈ s, c.toNat < 128 := by
      intro c hc
      rw [← toNat_toLower_lt]
      exact (hpat _ (hs ▸ List.mem_map_of_mem hc)).1
    rw [← List.append_nil s] at h
    obtain ⟨r, rfl, hr⟩ := h.of_ascii_append hascii
    rw [hs, hr.eq_nil_iff.mpr rfl, List.append_nil]

/-- An ASCII text behind a mark ends the lowercase exactly when it ends the text, in some case. -/
theorem suffix_iff {a : Char} {pat : List Char} (ha : IsMark a)
    (hpat : ∀ d ∈ pat, d.toNat < 128 ∧ d ≠ 'k') (h : Lowers s l) :
    (a :: pat) <:+ l ↔ (a :: pat) <:+ s.map Char.toLower := by
  constructor
  · rintro ⟨x, rfl⟩
    obtain ⟨s₁, s₂, rfl, -, h₂⟩ := h.cut ha
    rw [List.map_append, List.map_cons, (h₂.eq_iff hpat).mp rfl, toLower_of_not_alpha ha.2]
    exact List.suffix_append _ _
  · rintro ⟨x, hx⟩
    obtain ⟨s₁, t, rfl, -, ht⟩ := List.map_eq_append_iff.mp hx.symm
    obtain ⟨c, s₂, rfl, hc, hs₂⟩ := List.map_eq_cons_iff.mp ht
    obtain rfl := (toLower_eq_mark ha).mp hc
    obtain ⟨l₁, l₂, rfl, -, h₂⟩ := h.of_append_mark ha
    rw [(h₂.eq_iff hpat).mpr hs₂]
    exact List.suffix_append _ _

end Lowers

/-! ## Lowercase functions -/

/-- The function lowercases every text. -/
def Lowercases (f : String → String) : Prop := ∀ s : String, Lowers s.toList (f s).toList

/-- Lowercase of the ASCII letters only. -/
def lowerAscii (s : String) : String := String.ofList (s.toList.map Char.toLower)

theorem lowercases_lowerAscii : Lowercases lowerAscii := by
  intro s
  rw [lowerAscii, String.toList_ofList]
  induction s.toList with
  | nil => exact .nil
  | cons c l ih =>
    by_cases hc : c.toNat < 128
    · exact .cons (.ascii hc) ih
    · have hpiece : LowersTo c [c.toLower] := by
        refine .other hc (List.cons_ne_nil _ _) ?_
        intro d hd
        rw [List.mem_singleton.mp hd, toNat_toLower_lt]
        exact hc
      exact .cons hpiece ih

end Found
