import GooseClaw.Found.Lowercase

/-!
# Lowercase by one mapping of characters

`Lowers` leaves open what a character becomes each time it occurs. A lowercase function of texts maps the
characters one by one by a mapping that does not look around, but for the capital sigma, whose
lowercase depends on its neighbours (`LowersBy`). A part of a text is then lowercased as it stands in
the whole, as far as ASCII can tell, so an ASCII pattern found in the lowercase of a part is found in the
lowercase of the whole (`LowersBy.infix_of_part`).
-/

namespace Found

/-! ## Texts that ASCII cannot tell apart -/

/-- Two texts of one length that differ only outside ASCII. -/
def SameAscii : List Char → List Char → Prop :=
  List.Forall₂ fun a b => a = b ∨ ¬ a.toNat < 128 ∧ ¬ b.toNat < 128

theorem SameAscii.refl (l : List Char) : SameAscii l l :=
  List.forall₂_same.mpr fun _ _ => .inl rfl

theorem SameAscii.append {l₁ l₂ m₁ m₂ : List Char} (h₁ : SameAscii l₁ m₁) (h₂ : SameAscii l₂ m₂) :
    SameAscii (l₁ ++ l₂) (m₁ ++ m₂) := List.rel_append h₁ h₂

/-- An ASCII text is like no other. -/
theorem SameAscii.eq_of_ascii {pat l : List Char} (h : SameAscii pat l)
    (hpat : ∀ c ∈ pat, c.toNat < 128) : l = pat := by
  induction h with
  | nil => rfl
  | cons hab _ ih =>
    obtain ⟨ha, hrest⟩ := List.forall_mem_cons.mp hpat
    rcases hab with rfl | ⟨hn, -⟩
    · rw [ih hrest]
    · exact absurd ha hn

/-- ASCII text that stands in one stands in the other. -/
theorem SameAscii.infix_of_ascii {pat l m : List Char} (h : SameAscii l m)
    (hpat : ∀ c ∈ pat, c.toNat < 128) (hin : pat <:+: l) : pat <:+: m := by
  obtain ⟨x, y, rfl⟩ := hin
  rw [List.append_assoc] at h
  have hrest := List.forall₂_drop x.length h
  rw [List.drop_left] at hrest
  have hmiddle := List.forall₂_take pat.length hrest
  rw [List.take_left] at hmiddle
  rw [← SameAscii.eq_of_ascii hmiddle hpat]
  exact (List.take_prefix _ _).isInfix.trans (List.drop_suffix _ _).isInfix

/-! ## The mapping -/

/-- `l` is a lowercase of `s` by the mapping `g` of characters, and a choice for each capital sigma. -/
inductive LowersBy (g : Char → List Char) : List Char → List Char → Prop
  | nil : LowersBy g [] []
  | char {c : Char} {s l : List Char} : LowersBy g s l → LowersBy g (c :: s) (g c ++ l)
  | sigma {c : Char} {s l : List Char} : c = 'σ' ∨ c = 'ς' → LowersBy g s l →
      LowersBy g ('Σ' :: s) (c :: l)

namespace LowersBy

variable {g : Char → List Char} {s l m : List Char}

theorem of_append {s₁ s₂ : List Char} (h : LowersBy g (s₁ ++ s₂) l) :
    ∃ l₁ l₂, l = l₁ ++ l₂ ∧ LowersBy g s₁ l₁ ∧ LowersBy g s₂ l₂ := by
  induction s₁ generalizing l with
  | nil => exact ⟨[], l, rfl, .nil, h⟩
  | cons c s₁ ih =>
    cases h with
    | char hrest =>
      obtain ⟨l₁, l₂, rfl, h₁, h₂⟩ := ih hrest
      exact ⟨g c ++ l₁, l₂, (List.append_assoc _ _ _).symm, .char h₁, h₂⟩
    | sigma hc hrest =>
      obtain ⟨l₁, l₂, rfl, h₁, h₂⟩ := ih hrest
      exact ⟨_ :: l₁, l₂, rfl, .sigma hc h₁, h₂⟩

/-- Two lowercases of a text differ only in their sigmas. -/
theorem sameAscii (hsigma : ∃ d, g 'Σ' = [d] ∧ ¬ d.toNat < 128) (h : LowersBy g s l)
    (h' : LowersBy g s m) : SameAscii l m := by
  have hnot : ∀ c, c = 'σ' ∨ c = 'ς' → ¬ c.toNat < 128 := by
    intro c hc
    rcases hc with rfl | rfl
    · decide
    · decide
  obtain ⟨d, hgd, hd⟩ := hsigma
  induction h generalizing m with
  | nil =>
    cases h'
    exact .nil
  | @char c s l _ ih =>
    cases h' with
    | char hrest => exact (SameAscii.refl _).append (ih hrest)
    | sigma hc hrest =>
      rw [hgd]
      exact .cons (.inr ⟨hd, hnot _ hc⟩) (ih hrest)
  | @sigma c s l hc _ ih =>
    cases h' with
    | char hrest =>
      rw [hgd]
      exact .cons (.inr ⟨hnot _ hc, hd⟩) (ih hrest)
    | sigma hc' hrest => exact .cons (.inr ⟨hnot _ hc, hnot _ hc'⟩) (ih hrest)

/-- **A part is lowercased as in the whole**, as far as an ASCII pattern can tell. -/
theorem infix_of_part (hsigma : ∃ d, g 'Σ' = [d] ∧ ¬ d.toNat < 128) {part pat : List Char}
    (hpart : part <:+: s) (hp : LowersBy g part m) (hs : LowersBy g s l)
    (hpat : ∀ c ∈ pat, c.toNat < 128) (hin : pat <:+: m) : pat <:+: l := by
  obtain ⟨x, y, rfl⟩ := hpart
  obtain ⟨l', l₃, rfl, h', -⟩ := hs.of_append
  obtain ⟨l₁, l₂, rfl, -, h₂⟩ := h'.of_append
  have hmiddle := (hp.sameAscii hsigma h₂).infix_of_ascii hpat hin
  exact hmiddle.trans ⟨l₁, l₃, rfl⟩

/-- It is a lowercase, when the mapping lowercases characters. -/
theorem lowers (hg : ∀ c, LowersTo c (g c)) (h : LowersBy g s l) : Lowers s l := by
  induction h with
  | nil => exact .nil
  | char _ ih => exact .cons (hg _) ih
  | @sigma c s l hc _ ih =>
    have hpiece : LowersTo 'Σ' [c] := by
      refine .other (by decide) (List.cons_ne_nil _ _) ?_
      intro d hd
      rw [List.mem_singleton.mp hd]
      rcases hc with rfl | rfl
      · decide
      · decide
    exact .cons hpiece ih

end LowersBy

/-- The function lowercases every text by one mapping of characters, in which the capital sigma becomes
one character. -/
structure LowercasesBy (g : Char → List Char) (f : String → String) : Prop where
  char : ∀ c, LowersTo c (g c)
  sigma : ∃ d, g 'Σ' = [d]
  lowers : ∀ s : String, LowersBy g s.toList (f s).toList

namespace LowercasesBy

variable {g : Char → List Char} {f : String → String}

theorem lowercases (h : LowercasesBy g f) : Lowercases f := fun s => (h.lowers s).lowers h.char

theorem sigma_not_ascii (h : LowercasesBy g f) : ∃ d, g 'Σ' = [d] ∧ ¬ d.toNat < 128 := by
  obtain ⟨d, hd⟩ := h.sigma
  refine ⟨d, hd, ?_⟩
  have hchar := h.char 'Σ'
  rw [hd] at hchar
  cases hchar with
  | ascii hlt => exact absurd hlt (by decide)
  | other _ _ hpiece => exact hpiece d (List.mem_singleton_self d)

/-- ASCII text becomes its ASCII lowercase. -/
theorem eq_of_ascii (h : LowercasesBy g f) {s : String} (hs : ∀ c ∈ s.toList, c.toNat < 128) :
    (f s).toList = s.toList.map Char.toLower := by
  have hself := h.lowercases s
  rw [← List.append_nil s.toList] at hself
  obtain ⟨r, hr, hnil⟩ := hself.of_ascii_append hs
  rw [hr, hnil.eq_nil_iff.mpr rfl, List.append_nil]

/-- **An ASCII pattern in a part of a text is in the text**, in lowercase. -/
theorem infix_of_part (h : LowercasesBy g f) {part text pat : String}
    (hpat : ∀ c ∈ pat.toList, c.toNat < 128) (hpart : part.toList <:+: text.toList)
    (hin : (f pat).toList <:+: (f part).toList) : (f pat).toList <:+: (f text).toList := by
  refine LowersBy.infix_of_part h.sigma_not_ascii hpart (h.lowers part) (h.lowers text) ?_ hin
  rw [h.eq_of_ascii hpat]
  intro c hc
  obtain ⟨d, hd, rfl⟩ := List.mem_map.mp hc
  rw [toNat_toLower_lt]
  exact hpat d hd

end LowercasesBy

theorem lowersTo_toLower (c : Char) : LowersTo c [c.toLower] := by
  by_cases hc : c.toNat < 128
  · exact .ascii hc
  · refine .other hc (List.cons_ne_nil _ _) ?_
    intro d hd
    rw [List.mem_singleton.mp hd, toNat_toLower_lt]
    exact hc

theorem lowercasesBy_lowerAscii : LowercasesBy (fun c => [c.toLower]) lowerAscii where
  char := lowersTo_toLower
  sigma := ⟨'Σ', by decide⟩
  lowers s := by
    rw [lowerAscii, String.toList_ofList]
    induction s.toList with
    | nil => exact .nil
    | cons c l ih => exact .char ih

end Found
