import GooseClaw.Found.Lowercase
import GooseClaw.Found.Words
import GooseClaw.Text

/-!
# The vendor gate

`scripts/vendor_gate.py`: the build fails when a resolved package comes from an excluded vendor. `scan`
looks at a package in three ways, each for the texts of a denied list. Its name is compared. Its URL
fields and its authors are joined, lowercased and searched, wherever in them the text stands.

A scan does with every package what it does with the package alone (`scan_eq_flatMap`): it reports a
flagged one once and any other not at all (`scan_singleton`), and the build passes when none is flagged
(`main_eq_zero_iff`). Python's `str.lower` is a parameter; what is used of it is that a blank cuts a text
in two that are lowercased apart (`LowersWords`).
-/

namespace GooseClaw.VendorGate

open Found

/-! ## Lists -/

/-- The excluded vendors. -/
inductive Vendor
  | Meta
  | OpenAI
  | xAI
  deriving DecidableEq, Repr

def DENIED_ORGS : List (Vendor × List String) :=
  [(.Meta,
      ["github.com/facebook/", "github.com/facebookresearch/", "github.com/facebookincubator/",
        "github.com/meta-llama/"]),
    (.OpenAI, ["github.com/openai/"]),
    (.xAI, ["github.com/xai-org/"])]

/-- Matched as the exact name, or as the name followed by `-` or `_`. -/
def DENIED_CRATES : List (Vendor × List String) :=
  [(.OpenAI,
      ["openai", "async-openai", "openai-api-rs", "openai_dive", "tiktoken", "tiktoken-rs"]),
    (.xAI, ["xai", "grok"]),
    (.Meta, ["llama-api"])]

def DENIED_AUTHOR_DOMAINS : List (Vendor × List String) :=
  [(.Meta, ["@meta.com", "@fb.com"]), (.OpenAI, ["@openai.com"]), (.xAI, ["@x.ai"])]

/-- Crates a human has excepted, with the rationale. Deliberately empty. -/
def EXCEPTIONS : List (String × String) := []

/-- The texts of a list, whoever the vendor is. -/
def entries (denied : List (Vendor × List String)) : List String := denied.flatMap (·.2)

/-! ## The scan -/

/-- What the scan reads of a package. A missing name or version is the empty text, and the other fields
may be missing or null. -/
structure Package where
  name : String := ""
  version : String := ""
  repository : Option String := none
  homepage : Option String := none
  documentation : Option String := none
  authors : Option (List String) := none
  deriving DecidableEq, Repr

structure Violation where
  vendor : Vendor
  crate : String
  version : String
  reason : String
  evidence : String
  deriving DecidableEq, Repr

/-- `str.isspace` of one character: `White_Space` and the four separators of ASCII. -/
def isSpace (c : Char) : Bool := isWhitespace c || (0x1C ≤ c.toNat && c.toNat ≤ 0x1F)

/-- `str.strip`. -/
def strip (text : String) : String :=
  String.ofList ((text.toList.dropWhile isSpace).reverse.dropWhile isSpace).reverse

/-- `sub in text`. -/
def Within (sub text : String) : Prop := sub.toList <:+: text.toList

instance (sub text : String) : Decidable (Within sub text) :=
  inferInstanceAs (Decidable (_ <:+: _))

/-- The name is the denied one, or it goes on with `-` or `_`. -/
def NamedAfter (d n : String) : Prop :=
  n = d ∨ (d ++ "-").toList <+: n.toList ∨ (d ++ "_").toList <+: n.toList

instance (d n : String) : Decidable (NamedAfter d n) := inferInstanceAs (Decidable (_ ∨ _))

def Package.urls (pkg : Package) : List String :=
  [pkg.repository.getD "", pkg.homepage.getD "", pkg.documentation.getD ""]

def Package.authorList (pkg : Package) : List String := pkg.authors.getD []

section

variable (lower : String → String)

def nameHit (name : String) (denied : List String) : Option String :=
  denied.find? fun d => NamedAfter d (lower name)

/-- The first hit in a denied list: its vendor, the reason for the text found, and the evidence. -/
def firstHit (denied : List (Vendor × List String)) (found : List String → Option String)
    (reason : String → String) (evidence : String) : Option (Vendor × String × String) :=
  denied.findSome? fun (vendor, texts) =>
    (found texts).map fun text => (vendor, reason text, evidence)

/-- The crate-name matcher. -/
def crateHit (pkg : Package) : Option (Vendor × String × String) :=
  firstHit DENIED_CRATES (nameHit lower pkg.name)
    (fun d => "crate name matches denied '" ++ d ++ "'") pkg.name

/-- The org-URL matcher. -/
def orgHit (pkg : Package) : Option (Vendor × String × String) :=
  let urls := lower (" ".intercalate pkg.urls)
  firstHit DENIED_ORGS (fun orgs => orgs.find? fun org => Within org urls)
    (fun org => "repository under denied org '" ++ org ++ "'") (strip urls)

/-- The author-domain matcher. -/
def authorHit (pkg : Package) : Option (Vendor × String × String) :=
  let authors := lower (" ".intercalate pkg.authorList)
  firstHit DENIED_AUTHOR_DOMAINS (fun domains => domains.find? fun dom => Within dom authors)
    (fun dom => "author domain '" ++ dom ++ "'") (strip authors)

/-- The later matchers are asked when the earlier ones found nothing. -/
def hit (pkg : Package) : Option (Vendor × String × String) :=
  (crateHit lower pkg).or ((orgHit lower pkg).or (authorHit lower pkg))

/-- The body of the loop of `scan`. -/
def scanStep (violations : List Violation) (pkg : Package) : List Violation :=
  if pkg.name ∈ EXCEPTIONS.map Prod.fst then violations
  else
    match hit lower pkg with
    | some (vendor, reason, evidence) =>
      violations ++ [{ vendor, crate := pkg.name, version := pkg.version, reason, evidence }]
    | none => violations

/-- The violations, in the order of the packages. -/
def scan (packages : List Package) : List Violation := packages.foldl (scanStep lower) []

/-! ## The gate -/

def FIXTURE : List Package :=
  [{ name := "async-openai", version := "0.1.0",
      repository := some "https://github.com/64bit/async-openai", authors := some [] },
    { name := "zstd-sys", version := "2.0.0",
      repository := some "https://github.com/facebook/zstd", authors := some [] },
    { name := "tokio", version := "1.0.0",
      repository := some "https://github.com/tokio-rs/tokio", authors := some [] },
    { name := "nostr-sdk", version := "0.4.0",
      repository := some "https://github.com/rust-nostr/nostr", authors := some [] },
    { name := "wasmtime", version := "43.0.2",
      repository := some "https://github.com/bytecodealliance/wasmtime", authors := some [] }]

/-- The exit code of `self_test`: whether the scan of the fixture catches what it must and nothing that
must pass. -/
def selfTest : Nat :=
  let got := (scan lower FIXTURE).map (·.crate)
  let missed := ["async-openai", "zstd-sys"].filter (· ∉ got)
  let falsePos := got.filter (· ∈ ["tokio", "nostr-sdk", "wasmtime"])
  if missed ≠ [] ∨ falsePos ≠ [] then 1 else 0

/-- The exit code of the gate for the resolved packages, `none` while there is no `Cargo.toml`. -/
def main (selfTestAsked : Bool) (cargoPackages : Option (List Package)) : Nat :=
  if selfTestAsked then selfTest lower
  else
    match cargoPackages with
    | none => 0
    | some packages => if scan lower packages ≠ [] then 1 else 0

/-! ## What is flagged -/

/-- The package has a denied crate name, or one that goes on behind it. -/
def Named (pkg : Package) : Prop := ∃ d ∈ entries DENIED_CRATES, NamedAfter d (lower pkg.name)

/-- A human has let the package in. -/
def Excepted (pkg : Package) : Prop := pkg.name ∈ EXCEPTIONS.map Prod.fst

/-- A URL field of the package holds a denied organisation as text, or an author a denied domain. -/
def Mentions (pkg : Package) : Prop :=
  (∃ field ∈ pkg.urls, ∃ org ∈ entries DENIED_ORGS, Within org (lower field)) ∨
    ∃ author ∈ pkg.authorList, ∃ dom ∈ entries DENIED_AUTHOR_DOMAINS, Within dom (lower author)

/-- What the scan reports. -/
def Flagged (pkg : Package) : Prop := ¬ Excepted pkg ∧ (Named lower pkg ∨ Mentions lower pkg)

instance (pkg : Package) : Decidable (Named lower pkg) :=
  inferInstanceAs (Decidable (∃ d ∈ entries DENIED_CRATES, _))

instance (pkg : Package) : Decidable (Excepted pkg) := inferInstanceAs (Decidable (_ ∈ _))

instance (pkg : Package) : Decidable (Mentions lower pkg) :=
  inferInstanceAs (Decidable ((∃ field ∈ pkg.urls, _) ∨ ∃ author ∈ pkg.authorList, _))

/-! ## The scan, package by package -/

variable {lower}

/-- A step only puts its own violation behind the ones before. -/
theorem scanStep_eq_append (violations : List Violation) (pkg : Package) :
    scanStep lower violations pkg = violations ++ scan lower [pkg] := by
  show scanStep lower violations pkg = violations ++ scanStep lower [] pkg
  unfold scanStep
  split
  · exact (List.append_nil violations).symm
  · split
    · rfl
    · exact (List.append_nil violations).symm

/-- **What a scan finds is what it finds in each package alone**, in their order. -/
theorem scan_eq_flatMap (packages : List Package) :
    scan lower packages = packages.flatMap fun pkg => scan lower [pkg] := by
  have hfrom : ∀ violations, packages.foldl (scanStep lower) violations =
      violations ++ packages.flatMap fun pkg => scan lower [pkg] := by
    induction packages with
    | nil => exact fun violations => (List.append_nil violations).symm
    | cons pkg packages ih =>
      intro violations
      rw [List.foldl_cons, ih, scanStep_eq_append, List.flatMap_cons, List.append_assoc]
  exact hfrom []

/-- A denied list has a hit exactly when one of its texts is found. -/
theorem firstHit_isSome {denied : List (Vendor × List String)} {found : String → Bool}
    {reason : String → String} {evidence : String} :
    (firstHit denied (fun texts => texts.find? found) reason evidence).isSome = true ↔
      ∃ text ∈ entries denied, found text = true := by
  simp only [firstHit, List.isSome_findSome?, List.any_eq_true, Option.isSome_map,
    List.find?_isSome, entries, List.mem_flatMap]
  constructor
  · rintro ⟨listed, hlisted, text, htext, hfound⟩
    exact ⟨text, ⟨listed, hlisted, htext⟩, hfound⟩
  · rintro ⟨text, ⟨listed, hlisted, htext⟩, hfound⟩
    exact ⟨listed, hlisted, text, htext, hfound⟩

theorem crateHit_isSome {pkg : Package} : (crateHit lower pkg).isSome = true ↔ Named lower pkg := by
  unfold crateHit nameHit Named
  rw [firstHit_isSome]
  simp only [decide_eq_true_eq]

/-! ## The search -/

/-- What is used of `str.lower`: a blank stands where it stood, and cuts the text in two that are
lowercased apart. -/
structure LowersWords (lower : String → String) : Prop where
  empty : lower "" = ""
  blank : ∀ s t, lower (s ++ " " ++ t) = lower s ++ " " ++ lower t

theorem lowersWords_lowerAscii : LowersWords lowerAscii := by
  refine ⟨rfl, fun s t => ?_⟩
  rw [← String.toList_inj]
  simp only [lowerAscii, String.toList_append, String.toList_ofList, List.map_append]
  rfl

theorem LowersWords.intercalate (h : LowersWords lower) (fields : List String) :
    lower (" ".intercalate fields) = " ".intercalate (fields.map lower) := by
  induction fields with
  | nil => exact h.empty
  | cons field fields ih =>
    cases fields with
    | nil => simp only [List.map_cons, List.map_nil, String.intercalate_singleton]
    | cons next fields =>
      rw [String.intercalate_cons_cons, h.blank, ih]
      simp only [List.map_cons, String.intercalate_cons_cons]

/-- A text without blanks is in the joined fields exactly when it is in one of them. -/
theorem within_intercalate {text : String} (hblank : ' ' ∉ text.toList) (hne : text ≠ "")
    (fields : List String) :
    Within text (" ".intercalate fields) ↔ ∃ field ∈ fields, Within text field := by
  have hempty : ¬ Within text "" := by
    intro h
    exact hne (String.toList_eq_nil_iff.mp (List.infix_nil.mp h))
  induction fields with
  | nil =>
    rw [String.intercalate_nil]
    exact iff_of_false hempty fun ⟨_, hmem, _⟩ => List.not_mem_nil hmem
  | cons field fields ih =>
    cases fields with
    | nil => simp only [String.intercalate_singleton, List.mem_singleton, exists_eq_left]
    | cons next fields =>
      have hcut : Within text (" ".intercalate (field :: next :: fields)) ↔
          Within text field ∨ Within text (" ".intercalate (next :: fields)) := by
        unfold Within
        rw [String.intercalate_cons_cons, String.toList_append, String.toList_append,
          List.append_assoc]
        exact infix_append_cons_iff hblank
      rw [hcut, List.exists_mem_cons_iff]
      exact or_congr_right ih

section

variable (hl : LowersWords lower)

include hl

/-- The joined fields are searched as well as each field by itself. -/
theorem exists_within_lower {texts : List String}
    (hfree : ∀ text ∈ texts, ' ' ∉ text.toList ∧ text ≠ "") (fields : List String) :
    (∃ text ∈ texts, Within text (lower (" ".intercalate fields))) ↔
      ∃ field ∈ fields, ∃ text ∈ texts, Within text (lower field) := by
  have hone : ∀ text ∈ texts, (Within text (lower (" ".intercalate fields)) ↔
      ∃ field ∈ fields, Within text (lower field)) := by
    intro text htext
    obtain ⟨hblank, hne⟩ := hfree text htext
    rw [hl.intercalate, within_intercalate hblank hne]
    simp only [List.mem_map, exists_exists_and_eq_and]
  constructor
  · rintro ⟨text, htext, hfound⟩
    obtain ⟨field, hfield, hin⟩ := (hone text htext).mp hfound
    exact ⟨field, hfield, text, htext, hin⟩
  · rintro ⟨field, hfield, text, htext, hin⟩
    exact ⟨text, htext, (hone text htext).mpr ⟨field, hfield, hin⟩⟩

theorem orgHit_isSome {pkg : Package} :
    (orgHit lower pkg).isSome = true ↔
      ∃ field ∈ pkg.urls, ∃ org ∈ entries DENIED_ORGS, Within org (lower field) := by
  unfold orgHit
  rw [firstHit_isSome, ← exists_within_lower hl (forall_of_all (by decide)) pkg.urls]
  simp only [decide_eq_true_eq]

theorem authorHit_isSome {pkg : Package} :
    (authorHit lower pkg).isSome = true ↔
      ∃ author ∈ pkg.authorList, ∃ dom ∈ entries DENIED_AUTHOR_DOMAINS,
        Within dom (lower author) := by
  unfold authorHit
  rw [firstHit_isSome, ← exists_within_lower hl (forall_of_all (by decide)) pkg.authorList]
  simp only [decide_eq_true_eq]

/-- The matchers find a denied name or a mention. -/
theorem hit_isSome {pkg : Package} :
    (hit lower pkg).isSome = true ↔ Named lower pkg ∨ Mentions lower pkg := by
  unfold hit Mentions
  rw [Option.isSome_or, Option.isSome_or, Bool.or_eq_true, Bool.or_eq_true, crateHit_isSome,
    orgHit_isSome hl, authorHit_isSome hl]

/-- **What the scan does with one package**: a flagged one is one violation, under its own name and
version, and any other is none. -/
theorem scan_singleton (pkg : Package) :
    (Flagged lower pkg ∧
        ∃ v, scan lower [pkg] = [v] ∧ v.crate = pkg.name ∧ v.version = pkg.version) ∨
      (¬ Flagged lower pkg ∧ scan lower [pkg] = []) := by
  have hstep : scan lower [pkg] = scanStep lower [] pkg := rfl
  unfold Flagged
  rw [hstep, ← hit_isSome hl]
  unfold scanStep
  split
  · next hexcepted => exact .inr ⟨fun hflagged => hflagged.1 hexcepted, rfl⟩
  · next hexcepted =>
    cases hhit : hit lower pkg with
    | none => exact .inr ⟨fun hflagged => Bool.false_ne_true hflagged.2, rfl⟩
    | some found => exact .inl ⟨⟨hexcepted, rfl⟩, _, rfl, rfl, rfl⟩

end

/-! ## The build -/

/-- **The build passes** exactly when no package is flagged. -/
theorem main_eq_zero_iff (hl : LowersWords lower) (packages : List Package) :
    main lower false (some packages) = 0 ↔ ∀ pkg ∈ packages, ¬ Flagged lower pkg := by
  have hclean : main lower false (some packages) = 0 ↔ scan lower packages = [] := by
    unfold main
    by_cases hscan : scan lower packages = []
    · simp [hscan]
    · simp [hscan]
  rw [hclean, scan_eq_flatMap, List.flatMap_eq_nil_iff]
  refine forall₂_congr fun pkg _ => ?_
  rcases scan_singleton hl pkg with ⟨hflagged, v, hscan, -⟩ | ⟨hnot, hscan⟩
  · rw [hscan]
    exact iff_of_false (List.cons_ne_nil v []) (not_not_intro hflagged)
  · exact iff_of_true hscan hnot

example : selfTest lowerAscii = 0 := by decide +kernel

end

end GooseClaw.VendorGate
