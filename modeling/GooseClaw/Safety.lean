import GooseClaw.Channels.Evasion

/-!
# The scanners

`crates/gooseclaw-safety/src/lib.rs`: the injection scanner and the leak detector. Both are heuristics,
and the crate says so; what they do promise is about edits of the text.

The leak detector reports each credential that white space cuts off, and what it reports is the same for
every credential of a kind (`LeakDetector.scanLeaks_hides`). A warning of the sanitizer stays under the
edits of `Evasion`, but for invisible characters put into a marker, and these are reported themselves
(`Sanitizer.scanInjection_evasion`).
-/

namespace GooseClaw

open Found

/-! ## Findings -/

/-- Severity of a safety finding. -/
inductive Severity
  | low
  | medium
  | high
  deriving DecidableEq

/-- The place in the order the source derives. -/
def Severity.rank : Severity → Nat
  | .low => 0
  | .medium => 1
  | .high => 2

instance : LE Severity := ⟨fun a b => a.rank ≤ b.rank⟩

/-- A single prompt-injection warning. -/
structure InjectionWarning where
  pattern : String
  severity : Severity
  deriving DecidableEq

/-- A single detected leak. -/
structure LeakFinding where
  kind : String
  redacted : String
  deriving DecidableEq

/-- Result of a leak scan. -/
structure LeakScanResult where
  leaks : List LeakFinding
  deriving DecidableEq

/-! ## The leak detector -/

/-- What the detector says of one token. -/
def leakOf (token : List Char) : Option LeakFinding :=
  let len := (utf8 (String.ofList token)).length
  if "nsec1".toList <+: token ∧ 20 < len then some ⟨"nsec", "nsec1[REDACTED]"⟩
  else if "sk-".toList <+: token ∧ 16 < len then some ⟨"api-key", "sk-[REDACTED]"⟩
  else none

def LeakDetector.scanLeaks (content : String) : LeakScanResult :=
  ⟨(splitWhitespace content.toList).filterMap leakOf⟩

/-- A credential and what is said of it. -/
inductive Credential : LeakFinding → List Char → Prop
  | nsec {rest : List Char} : 20 < (utf8 (String.ofList ("nsec1".toList ++ rest))).length →
      Credential ⟨"nsec", "nsec1[REDACTED]"⟩ ("nsec1".toList ++ rest)
  | apiKey {rest : List Char} : 16 < (utf8 (String.ofList ("sk-".toList ++ rest))).length →
      Credential ⟨"api-key", "sk-[REDACTED]"⟩ ("sk-".toList ++ rest)

theorem leakOf_eq_some {token : List Char} {f : LeakFinding} :
    leakOf token = some f ↔ Credential f token := by
  constructor
  · intro h
    unfold leakOf at h
    dsimp only at h
    split at h
    · next hnsec =>
      cases h
      obtain ⟨⟨rest, rfl⟩, hlen⟩ := hnsec
      exact .nsec hlen
    · split at h
      · next hkey =>
        cases h
        obtain ⟨⟨rest, rfl⟩, hlen⟩ := hkey
        exact .apiKey hlen
      · cases h
  · intro h
    unfold leakOf
    cases h with
    | nsec hlen => exact if_pos ⟨List.prefix_append _ _, hlen⟩
    | @apiKey rest hlen =>
      have hnot : ¬ "nsec1".toList <+: "sk-".toList ++ rest := by
        rintro ⟨x, hx⟩
        cases hx
      rw [if_neg fun hnsec => hnot hnsec.1]
      exact if_pos ⟨List.prefix_append _ _, hlen⟩

/-- A part of a text takes no more bytes than the text. -/
theorem utf8_length_le_of_part {part text : List Char} (h : part <:+: text) :
    (utf8 (String.ofList part)).length ≤ (utf8 (String.ofList text)).length := by
  obtain ⟨x, y, rfl⟩ := h
  simp only [utf8_length, String.toList_ofList, List.map_append, List.sum_append]
  omega

theorem Credential.sixteen_lt {f : LeakFinding} {token : List Char} (h : Credential f token) :
    16 < (utf8 (String.ofList token)).length := by
  cases h with
  | nsec hlen => omega
  | apiKey hlen => exact hlen

/-- No text of a finding holds a credential. -/
theorem Credential.not_held {f f' : LeakFinding} {token token' : List Char} (h : Credential f token)
    (h' : Credential f' token') :
    ¬ token' <:+: f.kind.toList ∧ ¬ token' <:+: f.redacted.toList := by
  have hshort : (utf8 (String.ofList f.kind.toList)).length ≤ 16 ∧
      (utf8 (String.ofList f.redacted.toList)).length ≤ 16 := by
    cases h with
    | nsec => decide +kernel
    | apiKey => decide +kernel
  have hlong := h'.sixteen_lt
  constructor
  · intro hin
    have hle := utf8_length_le_of_part hin
    omega
  · intro hin
    have hle := utf8_length_le_of_part hin
    omega

/-- One credential is put in another's place, between white space. -/
inductive Swap : List Char → List Char → Prop
  | mk {f : LeakFinding} {pre s t post : List Char} : EndsIn isWhitespace pre →
      BeginsWith isWhitespace post → (∀ c ∈ s, isWhitespace c = false) →
      (∀ c ∈ t, isWhitespace c = false) → Credential f s → Credential f t →
      Swap (pre ++ s ++ post) (pre ++ t ++ post)

theorem Credential.ne_nil {f : LeakFinding} {token : List Char} (h : Credential f token) :
    token ≠ [] := by
  rintro rfl
  exact absurd h.sixteen_lt (by decide)

/-- The tokens of a text with a credential in it. -/
theorem splitWhitespace_credential {f : LeakFinding} {pre s post : List Char}
    (hpre : EndsIn isWhitespace pre) (hpost : BeginsWith isWhitespace post)
    (hs : ∀ c ∈ s, isWhitespace c = false) (h : Credential f s) :
    splitWhitespace (pre ++ s ++ post) = splitWhitespace pre ++ [s] ++ splitWhitespace post := by
  refine (words_append_right hpost).trans ?_
  rw [words_append_left hpre, words_of_free hs h.ne_nil]
  rfl

/-- A swap leaves the findings as they are. -/
theorem Swap.leaks {a b : List Char} (h : Swap a b) :
    (splitWhitespace b).filterMap leakOf = (splitWhitespace a).filterMap leakOf := by
  cases h with
  | mk hpre hpost hs ht hcs hct =>
    rw [splitWhitespace_credential hpre hpost hs hcs, splitWhitespace_credential hpre hpost ht hct]
    simp only [List.filterMap_append, List.filterMap_cons, leakOf_eq_some.mpr hcs,
      leakOf_eq_some.mpr hct]

/-- The findings of two texts with white space between. -/
theorem LeakDetector.scanLeaks_append {x y : List Char} {c : Char} (hc : isWhitespace c = true) :
    (scanLeaks (String.ofList (x ++ c :: y))).leaks =
      (scanLeaks (String.ofList x)).leaks ++ (scanLeaks (String.ofList y)).leaks := by
  simp only [scanLeaks, String.toList_ofList]
  rw [← List.filterMap_append]
  exact congrArg _ (words_append_cons hc x y)

/-- **The detector hides what it finds.** It reports the credentials that white space cuts off, and these
only; what it reports does not depend on the credentials, only on their kinds, and no text of a finding
holds a credential. -/
theorem LeakDetector.scanLeaks_hides (content : String) :
    (∀ f, f ∈ (scanLeaks content).leaks ↔ ∃ pre token post, content.toList = pre ++ token ++ post ∧
      EndsIn isWhitespace pre ∧ BeginsWith isWhitespace post ∧
      (∀ c ∈ token, isWhitespace c = false) ∧ Credential f token) ∧
    (∀ content' : String, Relation.ReflTransGen Swap content.toList content'.toList →
      scanLeaks content' = scanLeaks content) ∧
    ∀ f ∈ (scanLeaks content).leaks, ∀ f' token, Credential f' token →
      ¬ token <:+: f.kind.toList ∧ ¬ token <:+: f.redacted.toList := by
  have hmem : ∀ f, f ∈ (scanLeaks content).leaks ↔
      ∃ token ∈ splitWhitespace content.toList, Credential f token := by
    intro f
    simp only [scanLeaks, List.mem_filterMap, leakOf_eq_some]
  refine ⟨?_, ?_, ?_⟩
  · intro f
    rw [hmem]
    constructor
    · rintro ⟨token, htoken, hcred⟩
      obtain ⟨-, hfree, pre, post, htext, hpre, hpost⟩ := mem_words_iff.mp htoken
      exact ⟨pre, token, post, htext, hpre, hpost, hfree, hcred⟩
    · rintro ⟨pre, token, post, htext, hpre, hpost, hfree, hcred⟩
      refine ⟨token, mem_words_iff.mpr ⟨hcred.ne_nil, hfree, pre, post, htext, hpre, hpost⟩, hcred⟩
  · intro content' hswaps
    refine congrArg LeakScanResult.mk ?_
    generalize content'.toList = text at hswaps
    induction hswaps with
    | refl => rfl
    | tail _ hstep ih => rw [hstep.leaks, ih]
  · intro f hf f' token htoken
    obtain ⟨_, -, hcred⟩ := (hmem f).mp hf
    exact hcred.not_held htoken

/-! ## The sanitizer -/

/-- True if the input holds any character `strip_invisible` would remove. -/
def containsInvisible (input : String) : Bool :=
  (utf8 input).length != (utf8 (stripInvisible input)).length

/-- The instruction-override markers. -/
def overrideMarkers : List String :=
  ["ignore previous instructions", "ignore all previous", "disregard your instructions", "you are now "]

def Sanitizer.scanInjection (toLowercase : String → String) (content : String) :
    List InjectionWarning :=
  let lower := toLowercase content
  (if containsInvisible content then [⟨"invisible-unicode", .high⟩] else [])
    ++ (overrideMarkers.filter fun marker => decide (marker.toList <:+: lower.toList)).map
      fun marker => ⟨"override-marker:" ++ marker, .medium⟩

/-- The bytes of what is left tell whether anything was stripped. -/
theorem containsInvisible_iff {input : String} :
    containsInvisible input = true ↔ ∃ c ∈ input.toList, isInvisible c = true := by
  rw [containsInvisible, bne_iff_ne, utf8_length, utf8_length, toList_stripInvisible]
  induction input.toList with
  | nil => simp [visible]
  | cons c l ih =>
    have hle : ((visible l).map Char.utf8Size).sum ≤ (l.map Char.utf8Size).sum :=
      (List.filter_sublist.map Char.utf8Size).sum_le_sum fun _ _ => Nat.zero_le _
    cases hc : isInvisible c with
    | true =>
      have hpos := c.utf8Size_pos
      simp only [visible, List.filter_cons, hc, Bool.not_true, Bool.false_eq_true, if_false,
        List.map_cons, List.sum_cons] at hle ⊢
      refine iff_of_true (by omega) ⟨c, List.mem_cons_self, hc⟩
    | false =>
      simp only [visible, List.filter_cons, hc, Bool.not_false, if_true, List.map_cons,
        List.sum_cons] at ih ⊢
      simp only [List.mem_cons, exists_eq_or_imp, hc, Bool.false_eq_true, false_or, ← ih]
      omega

theorem containsInvisible_stripInvisible (s : String) :
    containsInvisible (stripInvisible s) = false := by
  rw [containsInvisible, stripInvisible_idem, bne_self_eq_false]

namespace Sanitizer

variable {toLowercase : String → String} {s t : String}

theorem invisible_mem : ⟨"invisible-unicode", .high⟩ ∈ scanInjection toLowercase s ↔
    ∃ c ∈ s.toList, isInvisible c = true := by
  rw [← containsInvisible_iff]
  cases h : containsInvisible s with
  | true => simp [scanInjection, h]
  | false => simp [scanInjection, h]

/-- More to find, more found. -/
theorem scanInjection_sublist (hinvisible : containsInvisible s = true → containsInvisible t = true)
    (hmarkers : ∀ marker : List Char, marker <:+: (toLowercase s).toList →
      marker <:+: (toLowercase t).toList) :
    (scanInjection toLowercase s).Sublist (scanInjection toLowercase t) := by
  unfold scanInjection
  refine List.Sublist.append ?_ (List.Sublist.map _ ?_)
  · split
    · next hs => rw [if_pos (hinvisible hs)]
    · exact List.nil_sublist _
  · refine List.monotone_filter_right _ ?_
    intro marker hmarker
    exact decide_eq_true (hmarkers _ (of_decide_eq_true hmarker))

/-- Other cases of the letters make no difference. -/
theorem scanInjection_caseVariant (hlaws : LowercaseLaws toLowercase)
    (h : CaseVariant s.toList t.toList) :
    (scanInjection toLowercase s).Sublist (scanInjection toLowercase t) := by
  refine scanInjection_sublist ?_ ?_
  · simp only [containsInvisible_iff]
    rintro ⟨c, hc, hinvisible⟩
    have hlower : c.toLower ∈ t.toList.map Char.toLower := h ▸ List.mem_map_of_mem hc
    obtain ⟨d, hd, hdc⟩ := List.mem_map.mp hlower
    refine ⟨d, hd, ?_⟩
    rw [← isInvisible_toLower, hdc, isInvisible_toLower, hinvisible]
  · intro marker hin
    rw [← hlaws.ignoresCase _ _ h]
    exact hin

/-- More text behind white space takes no warning away. -/
theorem scanInjection_surround (hlaws : LowercaseLaws toLowercase) {pre part post : List Char}
    (hpre : EndsIn isWhitespace pre) (hpost : BeginsWith isWhitespace post) :
    (scanInjection toLowercase (String.ofList part)).Sublist
      (scanInjection toLowercase (String.ofList (pre ++ part ++ post))) := by
  refine scanInjection_sublist ?_ ?_
  · simp only [containsInvisible_iff, String.toList_ofList]
    rintro ⟨c, hc, hinvisible⟩
    exact ⟨c, List.mem_append_left _ (List.mem_append_right _ hc), hinvisible⟩
  · intro marker hin
    have hlow := toLowercase_infix hlaws (s := part) hpre hpost
    exact hin.trans hlow

/-- One edit, without what is invisible. -/
theorem scanInjection_visible (hlaws : LowercaseLaws toLowercase) {a b : List Char}
    (h : Evasion a b) :
    (scanInjection toLowercase (String.ofList (visible a))).Sublist
      (scanInjection toLowercase (String.ofList (visible b))) := by
  cases h with
  | disguise hd =>
    refine scanInjection_caseVariant hlaws ?_
    rw [String.toList_ofList, String.toList_ofList]
    exact hd.visible
  | surround hpre hpost =>
    rw [visible, visible, List.filter_append, List.filter_append]
    exact scanInjection_surround hlaws (endsIn_visible hpre) (beginsWith_visible hpost)

/-- One edit: what was invisible stays, and no warning goes unless something invisible came. -/
theorem scanInjection_step (hlaws : LowercaseLaws toLowercase) {a b : List Char}
    (h : Evasion a b) :
    ((∃ c ∈ a, isInvisible c = true) → ∃ c ∈ b, isInvisible c = true) ∧
      ((∃ c ∈ b, isInvisible c = true) ∨ (scanInjection toLowercase (String.ofList a)).Sublist
        (scanInjection toLowercase (String.ofList b))) := by
  have hkeep : (scanInjection toLowercase (String.ofList a)).Sublist
      (scanInjection toLowercase (String.ofList b)) →
      (∃ c ∈ a, isInvisible c = true) → ∃ c ∈ b, isInvisible c = true := by
    intro hsub ha
    have hmem := hsub.subset (invisible_mem.mpr (by rw [String.toList_ofList]; exact ha))
    rw [invisible_mem, String.toList_ofList] at hmem
    exact hmem
  cases h with
  | disguise hd =>
    cases hd with
    | recase hcase =>
      have hsub := scanInjection_caseVariant (s := String.ofList a) (t := String.ofList b) hlaws
        (by rw [String.toList_ofList, String.toList_ofList]; exact hcase)
      exact ⟨hkeep hsub, .inr hsub⟩
    | @insert x y c hc =>
      have hcame : c ∈ x ++ c :: y := List.mem_append_right x List.mem_cons_self
      exact ⟨fun _ => ⟨_, hcame, hc⟩, .inl ⟨_, hcame, hc⟩⟩
  | surround hpre hpost =>
    have hsub := @scanInjection_surround toLowercase hlaws _ a _ hpre hpost
    exact ⟨hkeep hsub, .inr hsub⟩

theorem severity_le_high (a : Severity) : a ≤ .high := by
  cases a with
  | low => exact (by decide : (0 : Nat) ≤ 2)
  | medium => exact (by decide : (1 : Nat) ≤ 2)
  | high => exact Nat.le_refl 2

/-- **No evasion lowers the alarm.** After any edits each warning of the text is matched by one that is
no less severe; a warning is gone only when there is something invisible, which is reported. Of the
stripped text no warning goes at all. -/
theorem scanInjection_evasion (hlaws : LowercaseLaws toLowercase)
    (h : Relation.ReflTransGen Evasion s.toList t.toList) :
    (⟨"invisible-unicode", .high⟩ ∈ scanInjection toLowercase t ∨
      (scanInjection toLowercase s).Sublist (scanInjection toLowercase t)) ∧
    (∀ w ∈ scanInjection toLowercase s, ∃ w' ∈ scanInjection toLowercase t,
      w.severity ≤ w'.severity) ∧
    (scanInjection toLowercase (stripInvisible s)).Sublist
      (scanInjection toLowercase (stripInvisible t)) := by
  have hraw : (∃ c ∈ t.toList, isInvisible c = true) ∨
      (scanInjection toLowercase s).Sublist (scanInjection toLowercase t) := by
    rw [← String.ofList_toList (s := s), ← String.ofList_toList (s := t)]
    generalize t.toList = text at h ⊢
    rw [String.toList_ofList]
    induction h with
    | refl => exact .inr (List.Sublist.refl _)
    | tail _ hstep ih =>
      obtain ⟨hstays, hnew⟩ := scanInjection_step hlaws hstep
      rcases ih with hinvisible | hsub
      · exact .inl (hstays hinvisible)
      · exact hnew.imp_right hsub.trans
  have hstripped : (scanInjection toLowercase (String.ofList (visible s.toList))).Sublist
      (scanInjection toLowercase (String.ofList (visible t.toList))) := by
    generalize t.toList = text at h ⊢
    induction h with
    | refl => exact List.Sublist.refl _
    | tail _ hstep ih => exact ih.trans (scanInjection_visible hlaws hstep)
  rw [← @invisible_mem toLowercase] at hraw
  refine ⟨hraw, ?_, hstripped⟩
  intro w hw
  rcases hraw with hhigh | hsub
  · exact ⟨_, hhigh, severity_le_high _⟩
  · exact ⟨w, hsub.subset hw, Nat.le_refl _⟩

/-- A marker in capitals, cut in two by an invisible character, in a longer text. -/
theorem scanInjection_evasion_you_are_now :
    (∃ w ∈ scanInjection lowerAscii "ok YOU\u200b ARE NOW root", Severity.medium ≤ w.severity) ∧
    (scanInjection lowerAscii "you are now root").Sublist
      (scanInjection lowerAscii (stripInvisible "ok YOU\u200b ARE NOW root")) := by
  have hupper : Disguise "you are now root".toList "YOU ARE NOW root".toList :=
    .recase (by decide +kernel)
  have hinsert : Disguise "YOU ARE NOW root".toList "YOU\u200b ARE NOW root".toList :=
    .insert (x := "YOU".toList) (y := " ARE NOW root".toList) (c := '\u200b') (by decide)
  have hbefore : Evasion "YOU\u200b ARE NOW root".toList "ok YOU\u200b ARE NOW root".toList := by
    rw [show "ok YOU\u200b ARE NOW root".toList =
      (['o', 'k'] ++ [' ']) ++ "YOU\u200b ARE NOW root".toList ++ [] by decide +kernel]
    exact .surround (endsIn_snoc (by decide)) nofun
  have hedits := ((Relation.ReflTransGen.single (Evasion.disguise hupper)).tail
    (.disguise hinsert)).tail hbefore
  obtain ⟨-, hmatched, hstripped⟩ := scanInjection_evasion lowercaseLaws_lowerAscii hedits
  refine ⟨?_, hstripped⟩
  exact hmatched ⟨"override-marker:you are now ", .medium⟩ (by decide +kernel)

end Sanitizer

end GooseClaw
