import GooseClaw.Channels.Links

/-!
# Tokens that are URLs

A `UrlToken` is a token in the parts of a URL: leading punctuation, a scheme in any case, perhaps a
userinfo, a host, perhaps a port, and a tail. Each part is free of the characters that would end it,
and of those only; an `@` may stand in the userinfo and in the tail, a `:` also in the port.
`has_url` cuts the lowercase of such a token at the end of its authority, then behind the last `@`, then
before the first `:`, and what is left is the host (`hasUrl_eq`).
-/

namespace GooseClaw

open Found

/-! ## Cuts -/

/-- What stands before the first mark, when a text without marks goes on with one or ends. -/
theorem before_append_beginsWith {p : Char → Bool} {x y : List Char}
    (hx : ∀ c ∈ x, p c = false) (hy : BeginsWith p y) : before p (x ++ y) = x := by
  have hpos : ∀ c ∈ x, (!p c) = true := by
    intro c hc
    rw [hx c hc]
    rfl
  unfold before
  rw [List.takeWhile_append_of_pos hpos]
  cases y with
  | nil => rw [List.takeWhile_nil, List.append_nil]
  | cons d y =>
    rw [List.takeWhile_cons_of_neg, List.append_nil]
    rw [hy d rfl]
    exact Bool.false_ne_true

/-! ## The parts of a URL -/

/-- A token that is a URL, in its parts. -/
structure UrlToken where
  junk : List Char
  scheme : List Char
  userinfo : Option (List Char)
  host : List Char
  port : Option (List Char)
  tail : List Char
  junk_free : ∀ c ∈ junk, c.isAlphanum = false
  scheme_is : IsScheme scheme
  userinfo_free : ∀ u ∈ userinfo, ∀ c ∈ u, endsAuthority c = false
  host_ne_nil : host ≠ []
  host_ascii : ∀ c ∈ host, c.toNat < 128
  host_free : ∀ c ∈ host, endsAuthority c = false ∧ c ≠ '@' ∧ c ≠ ':'
  port_free : ∀ p ∈ port, ∀ c ∈ p, endsAuthority c = false ∧ c ≠ '@'
  tail_begins : BeginsWith endsAuthority tail

namespace UrlToken

variable (t : UrlToken)

/-- The userinfo with its `@`. -/
def userPart : List Char := t.userinfo.elim [] (· ++ ['@'])

/-- The port with its `:`. -/
def portPart : List Char := t.port.elim [] (':' :: ·)

def authority : List Char := t.userPart ++ (t.host ++ t.portPart)

def chars : List Char := t.junk ++ t.scheme ++ (t.authority ++ t.tail)

/-- The host in lowercase. -/
def lowerHost : List Char := t.host.map Char.toLower

variable {t}

theorem userPart_free : ∀ c ∈ t.userPart, endsAuthority c = false := by
  intro c hc
  unfold userPart at hc
  cases hu : t.userinfo with
  | none =>
    rw [hu] at hc
    cases hc
  | some u =>
    rw [hu, Option.elim_some, List.mem_append, List.mem_singleton] at hc
    rcases hc with hc | rfl
    · exact t.userinfo_free u hu c hc
    · decide

theorem portPart_free : ∀ c ∈ t.portPart, endsAuthority c = false ∧ c ≠ '@' := by
  intro c hc
  unfold portPart at hc
  cases hp : t.port with
  | none =>
    rw [hp] at hc
    cases hc
  | some p =>
    rw [hp, Option.elim_some, List.mem_cons] at hc
    rcases hc with rfl | hc
    · decide
    · exact t.port_free p hp c hc

theorem authority_free : ∀ c ∈ t.authority, endsAuthority c = false := by
  intro c hc
  unfold authority at hc
  rw [List.mem_append, List.mem_append] at hc
  rcases hc with hc | hc | hc
  · exact userPart_free c hc
  · exact (t.host_free c hc).1
  · exact (portPart_free c hc).1

/-- Behind the last `@` of the authority stand the host and the port. -/
theorem afterLast_authority : afterLast '@' t.authority = t.host ++ t.portPart := by
  have hfree : '@' ∉ t.host ++ t.portPart := by
    intro h
    rcases List.mem_append.mp h with h | h
    · exact (t.host_free _ h).2.1 rfl
    · exact (portPart_free _ h).2 rfl
  unfold authority userPart
  cases t.userinfo with
  | none => exact afterLast_of_not_mem hfree
  | some u =>
    rw [Option.elim_some, List.append_assoc]
    exact afterLast_append_cons hfree

/-- The host of the authority is the host. -/
theorem hostOf_authority : hostOf t.authority = t.host := by
  have hhost : ∀ c ∈ t.host, (c == ':') = false := by
    intro c hc
    exact beq_eq_false_iff_ne.mpr (t.host_free c hc).2.2
  have hport : BeginsWith (· == ':') t.portPart := by
    intro c hc
    unfold portPart at hc
    cases hp : t.port with
    | none =>
      rw [hp] at hc
      cases hc
    | some p =>
      rw [hp] at hc
      cases hc
      rfl
  unfold hostOf
  rw [afterLast_authority]
  exact before_append_beginsWith hhost hport

/-- What stands behind the scheme, cut where the authority ends. -/
theorem before_behind_scheme : before endsAuthority (t.authority ++ t.tail) = t.authority :=
  before_append_beginsWith authority_free t.tail_begins

/-! ## What is found -/

variable {toLowercase : String → String}

/-- A text of ASCII characters has one lowercase. -/
theorem eq_of_lowers_host {l : List Char} (h : Lowers t.host l) : l = t.lowerHost := by
  rw [← List.append_nil t.host] at h
  obtain ⟨r, rfl, hr⟩ := h.of_ascii_append t.host_ascii
  cases hr
  exact List.append_nil _

/-- **The host that is read of a URL is its host**, in lowercase. -/
theorem urlHost?_chars (hlower : Lowercases toLowercase) :
    urlHost? toLowercase t.chars = some t.lowerHost := by
  obtain ⟨host, hhost, hlow⟩ :=
    urlHost?_of_scheme hlower t.junk_free t.scheme_is (t.authority ++ t.tail)
  rw [before_behind_scheme, hostOf_authority] at hlow
  rw [← eq_of_lowers_host hlow]
  exact hhost

theorem chars_ne_nil : t.chars ≠ [] := by
  obtain ⟨c, cs, hscheme, -⟩ := isAlphanum_of_scheme t.scheme_is
  unfold chars
  rw [hscheme]
  simp

/-- **`has_url` is exact on URLs**: of a URL without white space it finds nothing if and only if the
lowercase host is listed or a subdomain of a listed one, and otherwise it finds the lowercase host. -/
theorem hasUrl_eq (hlower : Lowercases toLowercase)
    (free : ∀ c ∈ t.chars, isWhitespace c = false) :
    (hasUrl toLowercase (String.ofList t.chars) = none ↔
      ∃ allowed ∈ URL_HOST_ALLOWLIST,
        t.lowerHost = allowed.toList ∨ ('.' :: allowed.toList) <:+ t.lowerHost) ∧
    ((¬ ∃ allowed ∈ URL_HOST_ALLOWLIST,
        t.lowerHost = allowed.toList ∨ ('.' :: allowed.toList) <:+ t.lowerHost) →
      hasUrl toLowercase (String.ofList t.chars) = some (String.ofList t.lowerHost)) := by
  have hne : t.lowerHost.isEmpty = false := by
    rw [List.isEmpty_eq_false_iff]
    exact fun h => t.host_ne_nil (List.map_eq_nil_iff.mp h)
  have hallowed : isAllowedHost t.lowerHost = true ↔ ∃ allowed ∈ URL_HOST_ALLOWLIST,
      t.lowerHost = allowed.toList ∨ ('.' :: allowed.toList) <:+ t.lowerHost := by
    simp only [isAllowedHost, List.any_eq_true, Bool.or_eq_true, beq_iff_eq, decide_eq_true_eq]
  have hfind : hasUrl toLowercase (String.ofList t.chars) =
      if isAllowedHost t.lowerHost = true then none else some (String.ofList t.lowerHost) := by
    have hwords : splitWhitespace t.chars = [t.chars] := words_of_free free chars_ne_nil
    unfold hasUrl
    rw [String.toList_ofList, hwords]
    simp only [List.findSome?_cons, urlHost?_chars hlower, hne, List.findSome?_nil]
    cases isAllowedHost t.lowerHost <;> rfl
  rw [hfind, ← hallowed]
  by_cases h : isAllowedHost t.lowerHost = true
  · rw [if_pos h]
    exact ⟨iff_of_true rfl h, fun hno => absurd h hno⟩
  · rw [if_neg h]
    refine ⟨iff_of_false ?_ h, fun _ => rfl⟩
    intro hnone
    cases hnone

/-- A URL with an `@` in its userinfo and in its tail, whose host merely ends like a listed one. -/
def sample : UrlToken where
  junk := "(".toList
  scheme := "HTTPS://".toList
  userinfo := some "me:x@github.com".toList
  host := "EvilGithub.com".toList
  port := some "8080".toList
  tail := '/' :: "@github.com:1".toList
  junk_free := forall_of_all (by decide)
  scheme_is := .inl (by decide)
  userinfo_free := by
    rintro u ⟨⟩
    exact forall_of_all (by decide)
  host_ne_nil := by decide
  host_ascii := forall_of_all (by decide)
  host_free := forall_of_all (by decide)
  port_free := by
    rintro p ⟨⟩
    exact forall_of_all (by decide)
  tail_begins := by
    intro c hc
    cases hc
    decide

/-- The host of the sample is found. -/
theorem hasUrl_eq_sample :
    hasUrl lowerAscii (String.ofList sample.chars) = some (String.ofList "evilgithub.com".toList) := by
  have hhost : sample.lowerHost = "evilgithub.com".toList := by decide +kernel
  rw [← hhost]
  exact (hasUrl_eq lowercases_lowerAscii (forall_of_all (by decide +kernel))).2 (by decide +kernel)

end UrlToken

end GooseClaw
