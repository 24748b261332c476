import GooseClaw.Vendor.Places

/-!
# What the vendor gate must flag

The policy: a package is denied when it has a denied crate name, a URL under a denied organisation or an
author at a denied domain, unless a human has excepted it (`Denied`). The gate flags a package for a
mention, which may stand anywhere. `scan_flagsExactly_iff` says for which packages the gate nevertheless
flags exactly the denied ones.
-/

namespace GooseClaw.VendorGate

open Found

/-! ## The policy -/

section

variable (lower : String → String)

/-- The URLs of a package, in lowercase. -/
def urlWords (pkg : Package) : List (List Char) :=
  pkg.urls.flatMap fun field => words isSpace (lower field).toList

/-- The e-mail addresses of a package's authors, in lowercase. -/
def addresses (pkg : Package) : List (List Char) :=
  pkg.authorList.flatMap fun author => words delimitsAddress (lower author).toList

/-- A URL of the package lies under a denied organisation. -/
def UnderDenied (pkg : Package) : Prop :=
  ∃ url ∈ urlWords lower pkg, ∃ org ∈ entries DENIED_ORGS, UnderOrg org url

/-- An author of the package writes from a denied domain. -/
def AtDenied (pkg : Package) : Prop :=
  ∃ address ∈ addresses lower pkg, ∃ dom ∈ entries DENIED_AUTHOR_DOMAINS, AtDomain dom address

/-- **The policy**: what comes from an excluded vendor is denied, unless a human has excepted it. -/
def Denied (pkg : Package) : Prop :=
  ¬ Excepted pkg ∧ (Named lower pkg ∨ UnderDenied lower pkg ∨ AtDenied lower pkg)

/-- A denied text stands in the package where it means what the lists mean. -/
def MentionsInPlace (pkg : Package) : Prop :=
  (∃ field ∈ pkg.urls, ∃ org ∈ entries DENIED_ORGS, StandsAsHost org (lower field).toList) ∨
    ∃ author ∈ pkg.authorList, ∃ dom ∈ entries DENIED_AUTHOR_DOMAINS,
      EndsAddress dom (lower author).toList

/-- A URL of the package lies under a denied organisation and writes a port. -/
def UnderWithPort (pkg : Package) : Prop :=
  ∃ url ∈ urlWords lower pkg, ∃ org ∈ entries DENIED_ORGS, UnderOrg org url ∧ WritesPort url

instance (pkg : Package) : Decidable (UnderDenied lower pkg) :=
  inferInstanceAs (Decidable (∃ url ∈ urlWords lower pkg, _))

instance (pkg : Package) : Decidable (AtDenied lower pkg) :=
  inferInstanceAs (Decidable (∃ address ∈ addresses lower pkg, _))

instance (pkg : Package) : Decidable (Denied lower pkg) := inferInstanceAs (Decidable (_ ∧ _))

instance (pkg : Package) : Decidable (UnderWithPort lower pkg) :=
  inferInstanceAs (Decidable (∃ url ∈ urlWords lower pkg, _))

variable {lower}

/-- A text in its place is a mention. -/
theorem MentionsInPlace.mentions {pkg : Package} (h : MentionsInPlace lower pkg) :
    Mentions lower pkg := by
  rcases h with ⟨field, hfield, org, horg, u, v, hcut, -⟩ |
    ⟨author, hauthor, dom, hdom, u, v, hcut, -⟩
  · exact .inl ⟨field, hfield, org, horg, u, v, hcut.symm⟩
  · exact .inr ⟨author, hauthor, dom, hdom, u, v, hcut.symm⟩

/-- **What the lists mean is mentioned in its place**, but for URLs with a port. -/
theorem underDenied_or_atDenied_iff {pkg : Package} :
    UnderDenied lower pkg ∨ AtDenied lower pkg ↔
      MentionsInPlace lower pkg ∨ UnderWithPort lower pkg := by
  constructor
  · rintro (⟨url, hurl, org, horg, hunder⟩ | ⟨address, haddress, dom, hdom, hat⟩)
    · by_cases hport : WritesPort url
      · exact .inr ⟨url, hurl, org, horg, hunder, hport⟩
      · obtain ⟨field, hfield, hword⟩ := List.mem_flatMap.mp hurl
        have hstands := (standsAsHost_iff horg).mpr ⟨url, hword, hunder, hport⟩
        exact .inl (.inl ⟨field, hfield, org, horg, hstands⟩)
    · obtain ⟨author, hauthor, hword⟩ := List.mem_flatMap.mp haddress
      have hends := (endsAddress_iff hdom).mpr ⟨address, hword, hat⟩
      exact .inl (.inr ⟨author, hauthor, dom, hdom, hends⟩)
  · rintro ((⟨field, hfield, org, horg, hstands⟩ | ⟨author, hauthor, dom, hdom, hends⟩) |
      ⟨url, hurl, org, horg, hunder, -⟩)
    · obtain ⟨url, hword, hunder, -⟩ := (standsAsHost_iff horg).mp hstands
      exact .inl ⟨url, List.mem_flatMap.mpr ⟨field, hfield, hword⟩, org, horg, hunder⟩
    · obtain ⟨address, hword, hat⟩ := (endsAddress_iff hdom).mp hends
      exact .inr ⟨address, List.mem_flatMap.mpr ⟨author, hauthor, hword⟩, dom, hdom, hat⟩
    · exact .inl ⟨url, hurl, org, horg, hunder⟩

/-! ## What the gate flags -/

/-- **The gate flags exactly the denied packages**: a scan finds what it finds in each package alone, in
their order; for a denied package that is one violation under its name and version, and for any other
nothing. -/
structure FlagsExactly (lower : String → String) (packages : List Package) : Prop where
  inOrder : scan lower packages = packages.flatMap fun pkg => scan lower [pkg]
  denied : ∀ pkg ∈ packages, Denied lower pkg →
    ∃ v, scan lower [pkg] = [v] ∧ v.crate = pkg.name ∧ v.version = pkg.version
  others : ∀ pkg ∈ packages, ¬ Denied lower pkg → scan lower [pkg] = []

/-- A package is flagged and denied, or neither, exactly when it is excepted, or has a denied name, or
mentions something denied in its place, or both mentions something denied and has a denied URL with a
port, or neither. -/
theorem denied_iff_flagged {pkg : Package} :
    (Denied lower pkg ↔ Flagged lower pkg) ↔
      Excepted pkg ∨ Named lower pkg ∨ MentionsInPlace lower pkg ∨
        (Mentions lower pkg ↔ UnderWithPort lower pkg) := by
  unfold Denied Flagged
  rw [underDenied_or_atDenied_iff]
  by_cases hexcepted : Excepted pkg
  · simp only [hexcepted, not_true, false_and, true_or]
  · by_cases hnamed : Named lower pkg
    · simp only [hexcepted, hnamed, not_false_eq_true, true_and, true_or, or_true]
    · by_cases hplace : MentionsInPlace lower pkg
      · simp only [hexcepted, hnamed, hplace, hplace.mentions, not_false_eq_true, true_and, true_or,
          or_true]
      · simp only [hexcepted, hnamed, hplace, not_false_eq_true, true_and, false_or]
        exact iff_comm

/-- The scan does with one package what it must exactly when it flags the package for being denied. -/
theorem scan_singleton_iff (hl : LowersWords lower) (pkg : Package) :
    ((Denied lower pkg →
          ∃ v, scan lower [pkg] = [v] ∧ v.crate = pkg.name ∧ v.version = pkg.version) ∧
        (¬ Denied lower pkg → scan lower [pkg] = [])) ↔
      (Denied lower pkg ↔ Flagged lower pkg) := by
  rcases scan_singleton hl pkg with ⟨hflagged, v, hscan, hv⟩ | ⟨hnot, hscan⟩
  · rw [hscan, iff_true_right hflagged]
    constructor
    · rintro ⟨-, hothers⟩
      by_contra hd
      exact List.cons_ne_nil v [] (hothers hd)
    · intro hd
      exact ⟨fun _ => ⟨v, rfl, hv⟩, fun hnd => absurd hd hnd⟩
  · rw [hscan, iff_false_right hnot]
    constructor
    · rintro ⟨hdenied, -⟩ hd
      obtain ⟨v, hv, -⟩ := hdenied hd
      exact List.cons_ne_nil v [] hv.symm
    · intro hd
      exact ⟨fun h => absurd h hd, fun _ => rfl⟩

/-- **The gate flags exactly the denied packages exactly when** every package is excepted, or has a
denied crate name, or mentions something denied in its place, or else mentions nothing denied and has no
denied URL with a port, or both. -/
theorem scan_flagsExactly_iff (hl : LowersWords lower) (packages : List Package) :
    FlagsExactly lower packages ↔
      ∀ pkg ∈ packages, Excepted pkg ∨ Named lower pkg ∨ MentionsInPlace lower pkg ∨
        (Mentions lower pkg ↔ UnderWithPort lower pkg) := by
  constructor
  · intro h pkg hpkg
    rw [← denied_iff_flagged, ← scan_singleton_iff hl pkg]
    exact ⟨h.denied pkg hpkg, h.others pkg hpkg⟩
  · intro h
    have hone := fun pkg hpkg =>
      (scan_singleton_iff hl pkg).mpr (denied_iff_flagged.mpr (h pkg hpkg))
    exact ⟨scan_eq_flatMap packages, fun pkg hpkg => (hone pkg hpkg).1,
      fun pkg hpkg => (hone pkg hpkg).2⟩

/-- The fixture is flagged exactly: one package by its name, one by the organisation in its URL, and none
of the others mentions anything. -/
theorem scan_flagsExactly_fixture : FlagsExactly lowerAscii FIXTURE := by
  refine (scan_flagsExactly_iff lowersWords_lowerAscii FIXTURE).mpr ?_
  have hzstd : StandsAsHost "github.com/facebook/"
      (lowerAscii "https://github.com/facebook/zstd").toList :=
    ⟨"https://".toList, "zstd".toList, by decide, by decide⟩
  refine List.forall_mem_cons.mpr ⟨.inr (.inl (by decide +kernel)), ?_⟩
  refine List.forall_mem_cons.mpr ⟨.inr (.inr (.inl (.inl ?_))), ?_⟩
  · exact ⟨_, List.mem_cons_self, _, List.mem_cons_self, hzstd⟩
  · intro pkg hpkg
    have hnothing : ∀ pkg ∈ FIXTURE.drop 2,
        ¬ Mentions lowerAscii pkg ∧ ¬ UnderWithPort lowerAscii pkg :=
      forall_of_all (by decide +kernel)
    obtain ⟨hmention, hport⟩ := hnothing pkg hpkg
    exact .inr (.inr (.inr (iff_of_false hmention hport)))

/-- An author at a domain that goes on behind a denied one is flagged, and not denied. -/
theorem scan_flags_longer_domain :
    ¬ FlagsExactly lowerAscii
      [{ name := "serde", version := "1.0.0", authors := some ["Ann <ann@x.ai.example.org>"] }] := by
  intro h
  have hnone := h.others _ List.mem_cons_self (by decide +kernel)
  exact absurd hnone (by decide +kernel)
end

end GooseClaw.VendorGate
