import GooseClaw.Found.Lowercase
import GooseClaw.Found.Words
import GooseClaw.Channels.Moderation

/-!
# Which links moderation sees

The allowlist of URL hosts is meant for every URL of an admitted text. `has_url` looks at one place in
each whitespace-separated token: behind the leading characters that are no ASCII letters or digits. A URL
there is found, in any case of its scheme, and judged by its host (`hasUrl_isSome_iff`); a URL behind a
letter or a digit of its token is not looked at. `moderate_admits_allowed_iff` says for which texts
that makes no difference.
-/

namespace GooseClaw

open Found

/-! ## Cutting texts -/

theorem afterLast_of_not_mem {c : Char} {t : List Char} (h : c ∉ t) : afterLast c t = t := by
  unfold afterLast
  rw [List.takeWhile_eq_self_iff.mpr, List.reverse_reverse]
  intro d hd
  rw [bne_iff_ne]
  rintro rfl
  exact h (List.mem_reverse.mp hd)

theorem afterLast_append_cons {c : Char} {x y : List Char} (h : c ∉ y) :
    afterLast c (x ++ c :: y) = y := by
  have hy : ∀ d ∈ y.reverse, (d != c) = true := by
    intro d hd
    rw [bne_iff_ne]
    rintro rfl
    exact h (List.mem_reverse.mp hd)
  unfold afterLast
  rw [List.reverse_append, List.reverse_cons, List.append_assoc, List.takeWhile_append_of_pos hy]
  simp

/-- A list is cut at the last copy of an element. -/
theorem eq_append_cons_last {c : Char} {t : List Char} (h : c ∈ t) :
    ∃ x y, t = x ++ c :: y ∧ c ∉ y := by
  obtain ⟨x, y, hxy, hx⟩ := List.eq_append_cons_of_mem (List.mem_reverse.mpr h)
  refine ⟨y.reverse, x.reverse, ?_, fun hm => hx (List.mem_reverse.mp hm)⟩
  rw [← List.reverse_reverse t, hxy]
  simp

/-- What stands behind the last mark of a lowercase is a lowercase of what stands behind the last mark
of the text. -/
theorem lowers_afterLast {a : Char} {s l : List Char} (ha : IsMark a) (h : Lowers s l) :
    Lowers (afterLast a s) (afterLast a l) := by
  by_cases hmem : a ∈ s
  · obtain ⟨x, y, rfl, hy⟩ := eq_append_cons_last hmem
    obtain ⟨l₁, l₂, rfl, -, h₂⟩ := h.of_append_mark ha
    have hl₂ : a ∉ l₂ := fun hm => hy ((h₂.mark_mem ha).mp hm)
    rw [afterLast_append_cons hy, afterLast_append_cons hl₂]
    exact h₂
  · have hl : a ∉ l := fun hm => hmem ((h.mark_mem ha).mp hm)
    rw [afterLast_of_not_mem hmem, afterLast_of_not_mem hl]
    exact h

/-! ## URLs of a text -/

/-- `http://` or `https://`, in any case. -/
def IsScheme (s : List Char) : Prop :=
  s.map Char.toLower = "https://".toList ∨ s.map Char.toLower = "http://".toList

/-- The end of a URL's authority. -/
def endsAuthority (c : Char) : Bool := c == '/' || c == '?' || c == '#'

/-- The host in an authority: behind the last `@` and before a `:`. -/
def hostOf (authority : List Char) : List Char := before (· == ':') (afterLast '@' authority)

/-- The host of a URL, read from what follows its scheme. -/
def hostBehind (rest : List Char) : List Char :=
  hostOf (before (fun c => endsAuthority c || isWhitespace c) rest)

/-- The host is empty or allowed, in any case. -/
def HostOk (host : List Char) : Prop := host = [] ∨ isAllowedHost (host.map Char.toLower) = true

instance (host : List Char) : Decidable (HostOk host) := inferInstanceAs (Decidable (_ ∨ _))

/-- **The law of the allowlist**: every URL of the text, wherever it stands, has an empty or an allowed
host. -/
def OnlyAllowedHosts (text : List Char) : Prop :=
  ∀ pre scheme rest, text = pre ++ scheme ++ rest → IsScheme scheme → HostOk (hostBehind rest)

/-- A URL with a forbidden host, behind `pre`. -/
def ForbiddenAt (text pre : List Char) : Prop :=
  ∃ scheme rest, text = pre ++ scheme ++ rest ∧ IsScheme scheme ∧ ¬ HostOk (hostBehind rest)

/-- What stands behind `pre` is the head of its token: no ASCII letter or digit stands between it and
the white space before it. -/
def AtHead (pre : List Char) : Prop :=
  ∃ u v, pre = u ++ v ∧ EndsIn isWhitespace u ∧
    ∀ c ∈ v, isWhitespace c = false ∧ c.isAlphanum = false

theorem not_onlyAllowedHosts_iff {text : List Char} :
    ¬ OnlyAllowedHosts text ↔ ∃ pre, ForbiddenAt text pre := by
  unfold OnlyAllowedHosts ForbiddenAt
  constructor
  · intro h
    by_contra hno
    apply h
    intro pre scheme rest htext hscheme
    by_contra hhost
    exact hno ⟨pre, scheme, rest, htext, hscheme, hhost⟩
  · rintro ⟨pre, scheme, rest, htext, hscheme, hhost⟩ hall
    exact hhost (hall pre scheme rest htext hscheme)

/-! ## Hosts in lowercase -/

/-- An authority of a lowercase has the lowercase host. -/
theorem lowers_hostOf {s l : List Char} (h : Lowers s l) : Lowers (hostOf s) (hostOf l) := by
  have hcolon : ∀ c : Char, (c == ':') = true → IsMark c := by
    intro c hc
    rw [beq_iff_eq.mp hc]
    decide
  exact (lowers_afterLast (by decide) h).takeWhile hcolon

theorem isMark_of_endsAuthority {c : Char} (h : endsAuthority c = true) : IsMark c := by
  simp only [endsAuthority, Bool.or_eq_true, beq_iff_eq] at h
  rcases h with (rfl | rfl) | rfl <;> decide

private theorem allowlist_ascii {allowed : String} (h : allowed ∈ URL_HOST_ALLOWLIST) :
    ∀ d ∈ allowed.toList, d.toNat < 128 ∧ d ≠ 'k' := by
  have hall : URL_HOST_ALLOWLIST.all (fun allowed =>
      allowed.toList.all fun d => decide (d.toNat < 128 ∧ d ≠ 'k')) = true := by decide
  exact forall_of_all (List.all_eq_true.mp hall allowed h)

/-- A lowercase host is allowed exactly when the host is, in some case. -/
theorem isAllowedHost_lowers {s l : List Char} (h : Lowers s l) :
    isAllowedHost l = isAllowedHost (s.map Char.toLower) := by
  rw [Bool.eq_iff_iff]
  simp only [isAllowedHost, List.any_eq_true, Bool.or_eq_true, beq_iff_eq,
    decide_eq_true_eq]
  apply exists_congr
  intro allowed
  apply and_congr_right
  intro hmem
  have hascii := allowlist_ascii hmem
  rw [h.eq_iff hascii, h.suffix_iff (by decide) hascii]

theorem hostOk_lowers {s l : List Char} (h : Lowers s l) :
    HostOk s ↔ l = [] ∨ isAllowedHost l = true := by
  unfold HostOk
  rw [h.eq_nil_iff, isAllowedHost_lowers h]

/-! ## What `has_url` finds -/

section

variable {toLowercase : String → String}

/-- A scheme's letters come from no character outside ASCII. -/
private theorem scheme_ascii {pat : List Char}
    (h : pat = "https://".toList ∨ pat = "http://".toList) :
    ∀ d ∈ pat, d.toNat < 128 ∧ d ≠ 'i' ∧ d ≠ 'k' := by
  rcases h with rfl | rfl
  · exact forall_of_all (by decide)
  · exact forall_of_all (by decide)

theorem stripPrefix_eq_some {pre text r : List Char} :
    stripPrefix pre text = some r ↔ text = pre ++ r := by
  unfold stripPrefix
  constructor
  · intro h
    split at h
    · next hpre =>
      cases h
      exact (List.prefix_iff_eq_append.mp hpre).symm
    · cases h
  · rintro rfl
    rw [if_pos (List.prefix_append pre r), List.drop_left]

/-- At most one of the two prefixes is there. -/
theorem stripScheme_eq_some {l r : List Char} :
    (stripPrefix "https://".toList l).or (stripPrefix "http://".toList l) = some r ↔
      ∃ pat, (pat = "https://".toList ∨ pat = "http://".toList) ∧ l = pat ++ r := by
  rw [Option.or_eq_some_iff, stripPrefix_eq_some, stripPrefix_eq_some]
  constructor
  · rintro (h | ⟨-, h⟩)
    · exact ⟨_, .inl rfl, h⟩
    · exact ⟨_, .inr rfl, h⟩
  · rintro ⟨pat, rfl | rfl, rfl⟩
    · exact .inl rfl
    · refine .inr ⟨?_, rfl⟩
      unfold stripPrefix
      rw [if_neg]
      rintro ⟨t, ht⟩
      simp at ht

theorem isWhitespace_of_isAlpha {c : Char} (h : c.isAlpha = true) : isWhitespace c = false := by
  have hrange := toNat_of_isAlpha h
  simp only [isWhitespace, Bool.or_eq_false_iff, Bool.and_eq_false_iff, decide_eq_false_iff_not,
    beq_eq_false_iff_ne]
  omega

/-- ASCII case is nothing to white space. -/
theorem isWhitespace_toLower (c : Char) : isWhitespace c.toLower = isWhitespace c :=
  apply_toLower (fun _ => isWhitespace_of_isAlpha) c

theorem isWhitespace_of_scheme {scheme : List Char} (h : IsScheme scheme) :
    ∀ c ∈ scheme, isWhitespace c = false := by
  have hpat : ∀ d ∈ scheme.map Char.toLower, isWhitespace d = false := by
    rcases h with h | h
    · rw [h]
      exact forall_of_all (by decide)
    · rw [h]
      exact forall_of_all (by decide)
  intro c hc
  rw [← isWhitespace_toLower]
  exact hpat _ (List.mem_map_of_mem hc)

theorem isAlphanum_of_scheme {scheme : List Char} (h : IsScheme scheme) :
    ∃ c cs, scheme = c :: cs ∧ c.isAlphanum = true := by
  have hfirst : ∃ cs, scheme.map Char.toLower = 'h' :: cs := by
    rcases h with h | h
    · exact ⟨_, h⟩
    · exact ⟨_, h⟩
  obtain ⟨cs, hcs⟩ := hfirst
  obtain ⟨c, s, rfl, hc, -⟩ := List.map_eq_cons_iff.mp hcs
  refine ⟨c, s, rfl, ?_⟩
  have halpha : c.isAlpha = true := by
    rw [← Char.isAlpha_toLower_eq_isAlpha, hc]
    decide
  rw [Char.isAlphanum, halpha, Bool.true_or]

/-- **What `has_url` reads of a token**: the URL behind the characters that are no letters or digits,
and of it the host in lowercase. -/
theorem urlHost?_eq_some (hlower : Lowercases toLowercase) {token host : List Char}
    (h : urlHost? toLowercase token = some host) :
    ∃ v scheme rest, token = v ++ scheme ++ rest ∧ (∀ c ∈ v, c.isAlphanum = false) ∧
      IsScheme scheme ∧ Lowers (hostOf (before endsAuthority rest)) host := by
  unfold urlHost? at h
  dsimp only at h
  split at h
  · cases h
  · next r hr =>
    obtain ⟨pat, hpat, hl⟩ := stripScheme_eq_some.mp hr
    have hlow := hlower (String.ofList (token.dropWhile fun c => !c.isAlphanum))
    rw [String.toList_ofList, hl] at hlow
    obtain ⟨scheme, rest, htoken, hscheme, hrest⟩ := hlow.of_prefix (scheme_ascii hpat)
    refine ⟨token.takeWhile fun c => !c.isAlphanum, scheme, rest, ?_, ?_, ?_, ?_⟩
    · rw [List.append_assoc, ← htoken, List.takeWhile_append_dropWhile]
    · intro c hc
      simpa using List.mem_takeWhile_imp hc
    · unfold IsScheme
      rw [hscheme]
      exact hpat
    · rw [← Option.some.inj h]
      exact lowers_hostOf (hrest.takeWhile fun c => isMark_of_endsAuthority)

/-- Every URL at the head of a token is read. -/
theorem urlHost?_of_scheme (hlower : Lowercases toLowercase) {v scheme : List Char}
    (hv : ∀ c ∈ v, c.isAlphanum = false) (hscheme : IsScheme scheme) (rest : List Char) :
    ∃ host, urlHost? toLowercase (v ++ scheme ++ rest) = some host ∧
      Lowers (hostOf (before endsAuthority rest)) host := by
  have hdrop : (v ++ scheme ++ rest).dropWhile (fun c => !c.isAlphanum) = scheme ++ rest := by
    obtain ⟨c, cs, rfl, hc⟩ := isAlphanum_of_scheme hscheme
    rw [List.append_assoc, List.dropWhile_append_of_pos (by simpa using hv), List.cons_append,
      List.dropWhile_cons, hc]
    rfl
  have hlow := hlower (String.ofList (scheme ++ rest))
  rw [String.toList_ofList] at hlow
  have hascii : ∀ c ∈ scheme, c.toNat < 128 := by
    intro c hc
    rw [← toNat_toLower_lt]
    exact (scheme_ascii hscheme _ (List.mem_map_of_mem hc)).1
  obtain ⟨r, hr, hrest⟩ := hlow.of_ascii_append hascii
  have hstrip := stripScheme_eq_some.mpr ⟨_, hscheme, hr⟩
  refine ⟨hostOf (before endsAuthority r), ?_,
    lowers_hostOf (hrest.takeWhile fun c => isMark_of_endsAuthority)⟩
  unfold urlHost?
  rw [hdrop]
  dsimp only
  rw [hstrip]
  rfl

/-- White space ends an authority. -/
theorem hostBehind_append {rest w : List Char} (hrest : ∀ c ∈ rest, isWhitespace c = false)
    (hw : BeginsWith isWhitespace w) :
    hostBehind (rest ++ w) = hostOf (before endsAuthority rest) := by
  unfold hostBehind
  congr 1
  unfold before
  induction rest with
  | nil =>
    cases w with
    | nil => rfl
    | cons c w => simp [hw c rfl]
  | cons c rest ih =>
    obtain ⟨hc, hrest⟩ := List.forall_mem_cons.mp hrest
    rw [List.cons_append, List.takeWhile_cons, List.takeWhile_cons, ih hrest]
    simp only [hc, Bool.or_false]

/-- `has_url` reports a host when some token has one that is not allowed. -/
theorem hasUrl_isSome_iff_token {text : String} :
    (hasUrl toLowercase text).isSome = true ↔
      ∃ token ∈ words isWhitespace text.toList, ∃ host,
        urlHost? toLowercase token = some host ∧ ¬ (host = [] ∨ isAllowedHost host = true) := by
  unfold hasUrl
  rw [List.findSome?_isSome_iff]
  refine exists_congr fun token => and_congr_right fun _ => ?_
  cases urlHost? toLowercase token with
  | none => simp
  | some host => simp

/-- **`has_url` finds a forbidden host exactly when one stands at the head of a token.** -/
theorem hasUrl_isSome_iff (hlower : Lowercases toLowercase) {text : String} :
    (hasUrl toLowercase text).isSome = true ↔
      ∃ pre, ForbiddenAt text.toList pre ∧ AtHead pre := by
  rw [hasUrl_isSome_iff_token]
  constructor
  · rintro ⟨token, hmem, host, hhost, hbad⟩
    obtain ⟨-, hfree, u, w, htext, hu, hw⟩ := mem_words_iff.mp hmem
    obtain ⟨v, scheme, rest, rfl, hv, hscheme, hlow⟩ := urlHost?_eq_some hlower hhost
    have hrest : ∀ c ∈ rest, isWhitespace c = false :=
      fun c hc => hfree c (List.mem_append_right _ hc)
    refine ⟨u ++ v, ⟨scheme, rest ++ w, ?_, hscheme, ?_⟩, u, v, rfl, hu, ?_⟩
    · rw [htext]
      simp only [List.append_assoc]
    · rw [hostBehind_append hrest hw, hostOk_lowers hlow]
      exact hbad
    · intro c hc
      exact ⟨hfree c (List.mem_append_left _ (List.mem_append_left _ hc)), hv c hc⟩
  · rintro ⟨_, ⟨scheme, rest, htext, hscheme, hbad⟩, u, v, rfl, hu, hv⟩
    -- the token runs from behind `u` to the next white space
    obtain ⟨r, w, rfl, hr, hw⟩ := exists_append_beginsWith isWhitespace rest
    obtain ⟨host, hhost, hlow⟩ :=
      urlHost?_of_scheme hlower (fun c hc => (hv c hc).2) hscheme r
    rw [hostBehind_append hr hw, hostOk_lowers hlow] at hbad
    refine ⟨v ++ scheme ++ r, mem_words_iff.mpr ⟨?_, ?_, u, w, ?_, hu, hw⟩, host, hhost, hbad⟩
    · obtain ⟨c, cs, rfl, -⟩ := isAlphanum_of_scheme hscheme
      simp
    · intro c hc
      rcases List.mem_append.mp hc with hc | hc
      · rcases List.mem_append.mp hc with hc | hc
        · exact (hv c hc).1
        · exact isWhitespace_of_scheme hscheme c hc
      · exact hr c hc
    · rw [htext]
      simp only [List.append_assoc]

/-! ## What is admitted -/

/-- **When only allowed hosts are admitted.** A text with a forbidden URL is held back exactly when
it is held back for its text, or one of its forbidden URLs stands at the head of a token. -/
theorem moderate_admits_allowed_iff (hlower : Lowercases toLowercase) (env : InboundEnvelope) :
    (moderate toLowercase env = .admitted env → OnlyAllowedHosts env.text.toList) ↔
      ((∃ pre, ForbiddenAt env.text.toList pre) →
        HeldForText toLowercase env.text ∨ ∃ pre, ForbiddenAt env.text.toList pre ∧ AtHead pre) := by
  rw [moderate_eq_admitted, hasUrl_isSome_iff hlower, ← not_onlyAllowedHosts_iff]
  constructor
  · intro h hbad
    by_contra hno
    exact hbad (h (not_or.mp hno))
  · rintro h ⟨hheld, hfound⟩
    by_contra hbad
    rcases h hbad with hh | hf
    · exact hheld hh
    · exact hfound hf

/-- A plain link, in front of its token. -/
theorem moderate_admits_allowed_iff_at_head :
    let env : InboundEnvelope := ⟨⟨.fill 32 1⟩, "https://github.com/x", 0⟩
    (moderate lowerAscii env = .admitted env → OnlyAllowedHosts env.text.toList) ↔
      ((∃ pre, ForbiddenAt env.text.toList pre) →
        HeldForText lowerAscii env.text ∨ ∃ pre, ForbiddenAt env.text.toList pre ∧ AtHead pre) :=
  moderate_admits_allowed_iff lowercases_lowerAscii _

/-- The target of a markdown link stands behind the letters of its label, and is admitted on any
host. -/
theorem markdown_link_admitted :
    let env : InboundEnvelope :=
      ⟨⟨.fill 32 1⟩, "see [docs](https://evil.example.com/x)", 0⟩
    ¬ (moderate lowerAscii env = .admitted env → OnlyAllowedHosts env.text.toList) := by
  intro env h
  have hadmitted : moderate lowerAscii env = .admitted env := by decide +kernel
  have hhost := h hadmitted "see [docs](".toList "https://".toList "evil.example.com/x)".toList
    (by decide +kernel) (.inl (by decide +kernel))
  exact absurd hhost (by decide +kernel)

end

end GooseClaw
