import GooseClaw.Channels.Links
import GooseClaw.Vendor.Gate

/-!
# Where denied texts stand

What the denied lists mean is said apart from the search. A URL lies under an organisation by its host
and its path (`UnderOrg`), and an e-mail address is at a domain by what it ends in (`AtDomain`).

Both can be read off the text around the denied one: a URL under an organisation that writes no port is
the organisation's text where a host can begin (`standsAsHost_iff`), and an address at a domain is the
domain's text at the end of an address (`endsAddress_iff`).
-/

namespace GooseClaw.VendorGate

open Found

/-! ## URLs and addresses -/

/-- A character of a URL's scheme. -/
def isSchemeChar (c : Char) : Bool := c.isAlphanum || c == '+' || c == '-' || c == '.'

/-- What stands behind the scheme of a URL, or all of it where none is written. -/
def behindScheme (url : List Char) : List Char :=
  (stripPrefix "://".toList (url.dropWhile isSchemeChar)).getD url

def authority (url : List Char) : List Char := before endsAuthority (behindScheme url)

/-- The path of a URL, with its query and fragment. -/
def path (url : List Char) : List Char := (behindScheme url).dropWhile fun c => !endsAuthority c

/-- The URL lies under the organisation: its host is the one of the entry or a host below it, and its
path goes on below the organisation's directory. -/
def UnderOrg (org : String) (url : List Char) : Prop :=
  let host := before (· == '/') org.toList
  let dir := org.toList.dropWhile (· != '/')
  (hostOf (authority url) = host ∨ ('.' :: host) <:+ hostOf (authority url)) ∧ dir <+: path url

instance (org : String) (url : List Char) : Decidable (UnderOrg org url) :=
  inferInstanceAs (Decidable ((_ ∨ _) ∧ _))

/-- The URL writes a port behind its host. -/
def WritesPort (url : List Char) : Prop := ':' ∈ afterLast '@' (authority url)

instance (url : List Char) : Decidable (WritesPort url) := inferInstanceAs (Decidable (_ ∈ _))

/-- What parts the e-mail addresses in the text of an author from what stands around them. -/
def delimitsAddress (c : Char) : Bool := isSpace c || "<>()[],;:".toList.contains c

/-- The e-mail address is a local part and the domain, which is written with its `@`. -/
def AtDomain (dom : String) (address : List Char) : Prop :=
  dom.toList <:+ address ∧ address ≠ dom.toList

instance (dom : String) (address : List Char) : Decidable (AtDomain dom address) :=
  inferInstanceAs (Decidable (_ ∧ _))

/-! ## Places -/

/-- Where a host can begin in a URL that begins with `front`: there is no path yet and no port, and a
label begins. -/
def OpensHost (front : List Char) : Prop :=
  (∀ c ∈ behindScheme front, endsAuthority c = false) ∧
    ':' ∉ afterLast '@' (behindScheme front) ∧
      EndsIn (· == '.') (afterLast '@' (behindScheme front))

instance (front : List Char) : Decidable (OpensHost front) :=
  letI := List.decidableBAll (fun c => endsAuthority c = false) (behindScheme front)
  inferInstanceAs (Decidable (_ ∧ _ ∧ _))

/-- The organisation's text stands in the field where a host can begin. -/
def StandsAsHost (org : String) (field : List Char) : Prop :=
  ∃ u v, field = u ++ org.toList ++ v ∧ OpensHost (lastRun isSpace u)

/-- The domain's text stands in the author behind a character of an address and at its end. -/
def EndsAddress (dom : String) (author : List Char) : Prop :=
  ∃ u v, author = u ++ dom.toList ++ v ∧ ¬ EndsIn delimitsAddress u ∧ BeginsWith delimitsAddress v

/-! ## Organisations in URLs -/

/-- An entry of `DENIED_ORGS` as it is read: a host and a directory, without white space. -/
structure OrgEntry (org : String) (host dir : List Char) : Prop where
  eq : org.toList = host ++ '/' :: dir
  host_ne_nil : host ≠ []
  label : ∀ c ∈ host, isSchemeChar c = true
  visible : ∀ c ∈ org.toList, isSpace c = false

theorem isSchemeChar_ne {c d : Char} (hc : isSchemeChar c = true) (hd : isSchemeChar d = false) :
    c ≠ d := by
  rintro rfl
  rw [hc] at hd
  cases hd

theorem endsAuthority_of_isSchemeChar {c : Char} (h : isSchemeChar c = true) :
    endsAuthority c = false := by
  simp only [endsAuthority, Bool.or_eq_false_iff, beq_eq_false_iff_ne]
  exact ⟨⟨isSchemeChar_ne h rfl, isSchemeChar_ne h rfl⟩,
    isSchemeChar_ne h rfl⟩

/-- A URL has a scheme and is cut behind it, or has none. -/
theorem behindScheme_cases (url : List Char) :
    (∃ scheme, (∀ c ∈ scheme, isSchemeChar c = true) ∧
        url = scheme ++ "://".toList ++ behindScheme url) ∨ behindScheme url = url := by
  unfold behindScheme
  cases hstrip : stripPrefix "://".toList (url.dropWhile isSchemeChar) with
  | none => exact .inr rfl
  | some rest =>
    refine .inl ⟨url.takeWhile isSchemeChar, fun c hc => List.mem_takeWhile_imp hc, ?_⟩
    rw [List.append_assoc, Option.getD_some, ← stripPrefix_eq_some.mp hstrip,
      List.takeWhile_append_dropWhile]

theorem behindScheme_append_scheme {scheme : List Char}
    (h : ∀ c ∈ scheme, isSchemeChar c = true) (rest : List Char) :
    behindScheme (scheme ++ "://".toList ++ rest) = rest := by
  have hdrop : (scheme ++ "://".toList ++ rest).dropWhile isSchemeChar = "://".toList ++ rest := by
    rw [List.append_assoc, List.dropWhile_append_of_pos h]
    rfl
  unfold behindScheme
  rw [hdrop, stripPrefix_eq_some.mpr rfl]
  rfl

/-- No scheme is written where the first slash stands behind another character than a colon. -/
theorem behindScheme_of_slash {front rest : List Char} (hfront : '/' ∉ front)
    (hlast : front.getLast? ≠ some ':') :
    behindScheme (front ++ '/' :: rest) = front ++ '/' :: rest := by
  rcases behindScheme_cases (front ++ '/' :: rest) with ⟨scheme, hscheme, hurl⟩ | hnone
  · -- the first slash would be the one behind the scheme's colon
    exfalso
    generalize behindScheme (front ++ '/' :: rest) = tail at hurl
    have hurl' : front ++ '/' :: rest = (scheme ++ [':']) ++ '/' :: '/' :: tail := by
      rw [hurl]
      simp
    have hslash : '/' ∉ scheme ++ [':'] := by
      intro hmem
      rcases List.mem_append.mp hmem with h | h
      · exact isSchemeChar_ne (hscheme _ h) rfl rfl
      · exact absurd (List.mem_singleton.mp h) (by decide)
    obtain ⟨rfl, -⟩ := append_cons_inj hurl' hfront hslash
    exact hlast (by rw [List.getLast?_append]; rfl)
  · exact hnone

theorem behindScheme_of_not_mem {front : List Char} (h : '/' ∉ front) :
    behindScheme front = front := by
  rcases behindScheme_cases front with ⟨scheme, -, hfront⟩ | hnone
  · exfalso
    rw [hfront] at h
    simp at h
  · exact hnone

/-- What stands behind the scheme is cut where the URL is. -/
theorem exists_front {url front rest : List Char} (h : behindScheme url = front ++ rest)
    (hfront : '/' ∉ front) : ∃ x, url = x ++ rest ∧ behindScheme x = front := by
  rcases behindScheme_cases url with ⟨scheme, hscheme, hurl⟩ | hnone
  · refine ⟨scheme ++ "://".toList ++ front, ?_, behindScheme_append_scheme hscheme front⟩
    rw [hurl, h, List.append_assoc _ front]
  · exact ⟨front, hnone.symm.trans h, behindScheme_of_not_mem hfront⟩

theorem authority_append_path (url : List Char) : authority url ++ path url = behindScheme url :=
  List.takeWhile_append_dropWhile

/-- Without a port, all that stands behind the user is the host. -/
theorem hostOf_of_not_writesPort {url : List Char} (h : ¬ WritesPort url) :
    hostOf (authority url) = afterLast '@' (authority url) := by
  unfold hostOf before
  rw [List.takeWhile_eq_self_iff]
  intro c hc
  rw [Bool.not_eq_true', beq_eq_false_iff_ne]
  rintro rfl
  exact h hc

section

variable {org : String} {host dir : List Char} (horg : OrgEntry org host dir)

include horg

theorem OrgEntry.not_mem_host {c : Char} (hc : isSchemeChar c = false) : c ∉ host :=
  fun hmem => isSchemeChar_ne (horg.label c hmem) hc rfl

/-- The text of an organisation does not change what the scheme in front of it is. -/
theorem OrgEntry.behindScheme_append {front : List Char} (hfront : '/' ∉ behindScheme front)
    (rest : List Char) :
    behindScheme (front ++ org.toList ++ rest) = behindScheme front ++ org.toList ++ rest := by
  rcases behindScheme_cases front with ⟨scheme, hscheme, hcut⟩ | hnone
  · generalize behindScheme front = tail at hcut ⊢
    rw [hcut, List.append_assoc _ tail, List.append_assoc _ (tail ++ _),
      behindScheme_append_scheme hscheme]
  · rw [hnone] at hfront ⊢
    have hshape : front ++ org.toList ++ rest = (front ++ host) ++ '/' :: (dir ++ rest) := by
      rw [horg.eq]
      simp only [List.append_assoc, List.cons_append]
    rw [hshape]
    apply behindScheme_of_slash
    · rw [List.mem_append]
      exact not_or.mpr ⟨hfront, horg.not_mem_host rfl⟩
    · rw [List.getLast?_append_of_ne_nil front horg.host_ne_nil]
      intro hlast
      exact horg.not_mem_host rfl (List.mem_of_getLast? hlast)

theorem OrgEntry.before_eq : before (· == '/') org.toList = host := by
  rw [horg.eq]
  refine firstRun_append (fun c hc => ?_) ?_
  · rw [beq_eq_false_iff_ne]
    exact isSchemeChar_ne (horg.label c hc) rfl
  · intro c hc
    cases hc
    rfl

theorem OrgEntry.dropWhile_eq : org.toList.dropWhile (· != '/') = '/' :: dir := by
  have hcut : before (· == '/') org.toList ++ org.toList.dropWhile (· != '/') = org.toList :=
    List.takeWhile_append_dropWhile
  rw [horg.before_eq] at hcut
  exact List.append_cancel_left (hcut.trans horg.eq)

theorem OrgEntry.underOrg_iff {url : List Char} :
    UnderOrg org url ↔
      (hostOf (authority url) = host ∨ ('.' :: host) <:+ hostOf (authority url)) ∧
        ('/' :: dir) <+: path url := by
  unfold UnderOrg
  rw [horg.before_eq, horg.dropWhile_eq]

theorem OrgEntry.authority_eq {url front rest : List Char}
    (h : behindScheme url = front ++ org.toList ++ rest)
    (hfront : ∀ c ∈ front, endsAuthority c = false) :
    authority url = front ++ host ∧ path url = '/' :: dir ++ rest := by
  have hshape : behindScheme url = (front ++ host) ++ ('/' :: dir ++ rest) := by
    rw [h, horg.eq]
    simp only [List.append_assoc, List.cons_append]
  have hauthority : authority url = front ++ host := by
    have hfree : ∀ c ∈ front ++ host, endsAuthority c = false :=
      List.forall_mem_append.mpr
        ⟨hfront, fun c hc => endsAuthority_of_isSchemeChar (horg.label c hc)⟩
    unfold authority
    rw [hshape]
    refine firstRun_append hfree ?_
    intro c hc
    cases hc
    rfl
  have hcut := authority_append_path url
  rw [hauthority, hshape] at hcut
  exact ⟨hauthority, List.append_cancel_left hcut⟩

theorem OrgEntry.afterLast_append (front : List Char) :
    afterLast '@' (front ++ host) = afterLast '@' front ++ host := by
  have hfree : ∀ c ∈ host, (c == '@') = false := by
    intro c hc
    rw [beq_eq_false_iff_ne]
    exact isSchemeChar_ne (horg.label c hc) rfl
  exact lastRun_append_free hfree

/-- Where a host can begin, the organisation's text makes the URL one under the organisation. -/
theorem OrgEntry.under_of_opensHost {x : List Char} (hx : OpensHost x) (y : List Char) :
    UnderOrg org (x ++ org.toList ++ y) ∧ ¬ WritesPort (x ++ org.toList ++ y) := by
  obtain ⟨hpath, hcolon, hlabel⟩ := hx
  have hslash : '/' ∉ behindScheme x := fun hmem => Bool.noConfusion (hpath _ hmem)
  obtain ⟨hauthority, hrest⟩ := horg.authority_eq (horg.behindScheme_append hslash y) hpath
  have hport : ¬ WritesPort (x ++ org.toList ++ y) := by
    unfold WritesPort
    rw [hauthority, horg.afterLast_append, List.mem_append]
    exact not_or.mpr ⟨hcolon, horg.not_mem_host rfl⟩
  refine ⟨horg.underOrg_iff.mpr ⟨?_, ?_⟩, hport⟩
  · rw [hostOf_of_not_writesPort hport, hauthority, horg.afterLast_append]
    rcases hlabel.eq_nil_or_snoc with hnil | ⟨above, dot, habove, hdot⟩
    · rw [hnil]
      exact .inl rfl
    · rw [habove, beq_iff_eq.mp hdot, List.append_assoc]
      exact .inr (List.suffix_append above _)
  · rw [hrest]
    exact List.prefix_append _ y

/-- In the authority of a URL under an organisation, the host begins where one can. -/
theorem OrgEntry.exists_authority {url : List Char} (hport : ¬ WritesPort url)
    (hhost : hostOf (authority url) = host ∨ ('.' :: host) <:+ hostOf (authority url)) :
    ∃ front, authority url = front ++ host ∧ ':' ∉ afterLast '@' front ∧
      EndsIn (· == '.') (afterLast '@' front) := by
  obtain ⟨user, hcut, hfree, huser⟩ := exists_append_lastRun (· == '@') (authority url)
  rw [hostOf_of_not_writesPort hport] at hhost
  generalize hlast : afterLast '@' (authority url) = last at hhost
  have hlast' : lastRun (· == '@') (authority url) = last := hlast
  rw [hlast'] at hcut hfree
  rcases hhost with rfl | ⟨above, rfl⟩
  · -- the host stands right behind the user
    have hnil : afterLast '@' user = [] := lastRun_eq_nil_iff.mpr huser
    refine ⟨user, hcut, ?_, ?_⟩
    · rw [hnil]
      exact List.not_mem_nil
    · rw [hnil]
      exact endsIn_nil
  · -- labels of a host below it stand in between
    have hshape : above ++ '.' :: host = (above ++ ['.']) ++ host := by
      rw [List.append_assoc, List.singleton_append]
    rw [hshape] at hcut hfree hlast
    have hlabels : afterLast '@' (user ++ (above ++ ['.'])) = above ++ ['.'] :=
      lastRun_append huser (List.forall_mem_append.mp hfree).1
    refine ⟨user ++ (above ++ ['.']), by rw [hcut, List.append_assoc user], ?_, ?_⟩
    · rw [hlabels]
      intro hmem
      apply hport
      unfold WritesPort
      rw [hlast]
      exact List.mem_append_left host hmem
    · rw [hlabels]
      exact endsIn_snoc rfl

/-- **A URL lies under an organisation and writes no port** exactly when the organisation's text stands
in it where a host can begin. -/
theorem OrgEntry.underOrg_and_iff {url : List Char} :
    UnderOrg org url ∧ ¬ WritesPort url ↔
      ∃ x y, x ++ org.toList ++ y = url ∧ OpensHost x := by
  constructor
  · rintro ⟨hunder, hport⟩
    obtain ⟨hhost, rest, hrest⟩ := horg.underOrg_iff.mp hunder
    obtain ⟨front, hauthority, hcolon, hlabel⟩ := horg.exists_authority hport hhost
    have hpath : ∀ c ∈ front, endsAuthority c = false := by
      intro c hc
      have hmem : c ∈ authority url := by
        rw [hauthority]
        exact List.mem_append_left host hc
      have hends : (!endsAuthority c) = true :=
        List.mem_takeWhile_imp (p := fun c => !endsAuthority c) hmem
      rw [Bool.not_eq_true'] at hends
      exact hends
    have hshape : behindScheme url = front ++ (org.toList ++ rest) := by
      rw [← authority_append_path, hauthority, ← hrest, horg.eq]
      simp only [List.append_assoc]
    have hslash : '/' ∉ front := fun hmem => Bool.noConfusion (hpath _ hmem)
    obtain ⟨x, hurl, hx⟩ := exists_front hshape hslash
    refine ⟨x, rest, by rw [hurl, List.append_assoc], ?_⟩
    unfold OpensHost
    rw [hx]
    exact ⟨hpath, hcolon, hlabel⟩
  · rintro ⟨x, y, rfl, hx⟩
    exact horg.under_of_opensHost hx y

end

/-! ## Places of denied texts -/

theorem orgEntry_of_mem {org : String} (h : org ∈ entries DENIED_ORGS) :
    ∃ dir, OrgEntry org "github.com".toList dir := by
  have hentries : ∀ org ∈ entries DENIED_ORGS,
      org.toList = "github.com".toList ++ '/' :: org.toList.drop 11 ∧
        org.toList.all (fun c => !isSpace c) = true := forall_of_all (by decide)
  obtain ⟨heq, hvisible⟩ := hentries org h
  exact ⟨org.toList.drop 11, heq, List.cons_ne_nil _ _, forall_of_all (by decide),
    forall_of_all_not hvisible⟩

/-- **A URL of the text lies under a denied organisation and writes no port** exactly when the
organisation's text stands in the text where a host can begin. -/
theorem standsAsHost_iff {org : String} (h : org ∈ entries DENIED_ORGS) {field : List Char} :
    StandsAsHost org field ↔ ∃ url ∈ words isSpace field, UnderOrg org url ∧ ¬ WritesPort url := by
  obtain ⟨dir, horg⟩ := orgEntry_of_mem h
  have hne : org.toList ≠ [] := by
    rw [horg.eq]
    exact List.append_ne_nil_of_left_ne_nil horg.host_ne_nil _
  have hparts := part_of_word_iff (l := field) (P := fun x _ => OpensHost x) horg.visible hne
  unfold StandsAsHost
  rw [← hparts]
  constructor
  · rintro ⟨x, y, hword, hx⟩
    exact ⟨_, hword, horg.underOrg_and_iff.mpr ⟨x, y, rfl, hx⟩⟩
  · rintro ⟨url, hword, hunder⟩
    obtain ⟨x, y, rfl, hx⟩ := horg.underOrg_and_iff.mp hunder
    exact ⟨x, y, hword, hx⟩

/-- **An address of the text is at a denied domain** exactly when the domain's text stands in the text
behind a character of an address and at its end. -/
theorem endsAddress_iff {dom : String} (h : dom ∈ entries DENIED_AUTHOR_DOMAINS)
    {author : List Char} :
    EndsAddress dom author ↔ ∃ address ∈ words delimitsAddress author, AtDomain dom address := by
  have hentries : ∀ dom ∈ entries DENIED_AUTHOR_DOMAINS,
      dom.toList ≠ [] ∧ dom.toList.all (fun c => !delimitsAddress c) = true :=
    forall_of_all (by decide)
  obtain ⟨hne, hfree⟩ := hentries dom h
  have hparts := part_of_word_iff (l := author) (P := fun x y => x ≠ [] ∧ y = [])
    (forall_of_all_not hfree) hne
  simp only [ne_eq, lastRun_eq_nil_iff, firstRun_eq_nil_iff] at hparts
  unfold EndsAddress
  rw [← hparts]
  constructor
  · rintro ⟨x, y, hword, hx, rfl⟩
    rw [List.append_nil] at hword
    refine ⟨_, hword, List.suffix_append x _, fun heq => hx ?_⟩
    exact List.append_left_eq_self.mp heq
  · rintro ⟨address, hword, ⟨x, rfl⟩, hmore⟩
    refine ⟨x, [], ?_, ?_, rfl⟩
    · rw [List.append_nil]
      exact hword
    · rintro rfl
      exact hmore rfl

end GooseClaw.VendorGate
