import GooseClaw.Channels.Links

/-!
# Evasions

A sender who may write can disguise what it writes: change the case of letters, put invisible
characters between them, or hide the text in a longer one. None of it helps. `admit` takes the
invisible characters out before `moderate` looks, and each of the four rules of `moderate` ignores
ASCII case (`reasonFor_lowerAscii`) and holds of a longer text when it holds of a part that
white space cuts off (`isSome_reasonFor_surround`). `quarantine_evasion_closed` puts this together
for any number of edits in any order.
-/

namespace GooseClaw

open Found

/-! ## Edits -/

/-- The texts are the same but for the case of ASCII letters. -/
def CaseVariant (s t : List Char) : Prop := s.map Char.toLower = t.map Char.toLower

instance (s t : List Char) : Decidable (CaseVariant s t) := inferInstanceAs (Decidable (_ = _))

/-- An edit that leaves the text as it reads. -/
inductive Disguise : List Char → List Char → Prop
  | recase {s t : List Char} : CaseVariant s t → Disguise s t
  | insert {x y : List Char} {c : Char} : isInvisible c = true → Disguise (x ++ y) (x ++ c :: y)

/-- A disguise, or other text before and after, behind white space. -/
inductive Evasion : List Char → List Char → Prop
  | disguise {s t : List Char} : Disguise s t → Evasion s t
  | surround {pre s post : List Char} : EndsIn isWhitespace pre → BeginsWith isWhitespace post →
      Evasion s (pre ++ s ++ post)

/-- What the rules rely on of `str::to_lowercase`: it sends ASCII case variants to the same result,
and acts independently on parts that white space separates. -/
structure LowercaseLaws (toLowercase : String → String) : Prop where
  ignoresCase : ∀ s t : String, CaseVariant s.toList t.toList → toLowercase s = toLowercase t
  acrossWhitespace : ∀ (x : List Char) (c : Char) (y : List Char), isWhitespace c = true →
    (toLowercase (String.ofList (x ++ c :: y))).toList =
      (toLowercase (String.ofList x)).toList ++ c :: (toLowercase (String.ofList y)).toList

theorem isInvisible_toLower (c : Char) : isInvisible c.toLower = isInvisible c := by
  refine apply_toLower (b := false) (fun c hc => ?_) c
  have hrange := toNat_of_isAlpha hc
  simp only [isInvisible, Bool.or_eq_false_iff, Bool.and_eq_false_iff, decide_eq_false_iff_not,
    beq_eq_false_iff_ne]
  omega

theorem isAlphanum_toLower (c : Char) : c.toLower.isAlphanum = c.isAlphanum :=
  apply_toLower (fun _ hc => by rw [Char.isAlphanum, hc, Bool.true_or]) c

theorem utf8Size_toLower (c : Char) : c.toLower.utf8Size = c.utf8Size := by
  refine apply_toLower (p := Char.utf8Size) (b := 1) (fun c hc => ?_) c
  rw [Char.utf8Size_eq_one_iff]
  have hrange := toNat_of_isAlpha hc
  exact UInt32.le_iff_toNat_le.mpr (show c.toNat ≤ 127 by omega)

/-- No invisible character is white space. -/
theorem isInvisible_of_isWhitespace {c : Char} (h : isWhitespace c = true) :
    isInvisible c = false := by
  simp only [isWhitespace, Bool.or_eq_true, Bool.and_eq_true, decide_eq_true_eq, beq_iff_eq] at h
  simp only [isInvisible, Bool.or_eq_false_iff, Bool.and_eq_false_iff, decide_eq_false_iff_not,
    beq_eq_false_iff_ne]
  omega

/-! ## Stripping -/

/-- What `strip_invisible` leaves of a text. -/
def visible (s : List Char) : List Char := s.filter fun c => !isInvisible c

theorem toList_stripInvisible (s : String) : (stripInvisible s).toList = visible s.toList := by
  rw [stripInvisible, String.toList_ofList, visible]

theorem visible_insert {x y : List Char} {c : Char} (h : isInvisible c = true) :
    visible (x ++ c :: y) = visible (x ++ y) := by
  simp only [visible, List.filter_append, List.filter_cons, h, Bool.not_true, Bool.false_eq_true,
    if_false]

theorem visible_map_toLower (s : List Char) :
    visible (s.map Char.toLower) = (visible s).map Char.toLower := by
  simp only [visible, List.filter_map, Function.comp_def, isInvisible_toLower]

/-- A disguise leaves the visible text as it is, but for the case of its letters. -/
theorem Disguise.visible {s t : List Char} (h : Disguise s t) :
    CaseVariant (visible s) (visible t) := by
  cases h with
  | recase hcase =>
    unfold CaseVariant
    rw [← visible_map_toLower, hcase, visible_map_toLower]
  | insert hc => rw [visible_insert hc, CaseVariant]

theorem endsIn_visible {s : List Char} (h : EndsIn isWhitespace s) :
    EndsIn isWhitespace (visible s) := by
  rcases h.eq_nil_or_snoc with rfl | ⟨s', c, rfl, hc⟩
  · exact endsIn_nil
  · have hlast : visible (s' ++ [c]) = visible s' ++ [c] := by
      simp only [visible, List.filter_append, List.filter_cons, isInvisible_of_isWhitespace hc,
        Bool.not_false, if_true, List.filter_nil]
    rw [hlast]
    exact endsIn_snoc hc

theorem beginsWith_visible {s : List Char} (h : BeginsWith isWhitespace s) :
    BeginsWith isWhitespace (visible s) := by
  cases s with
  | nil => exact h
  | cons c s =>
    have hc : isWhitespace c = true := h c rfl
    simp only [visible, List.filter_cons, isInvisible_of_isWhitespace hc, Bool.not_false, if_true]
    rintro d ⟨⟩
    exact hc

/-! ## Case -/

section

variable {toLowercase : String → String}

theorem caseVariant_lowerAscii (s : String) : CaseVariant (lowerAscii s).toList s.toList := by
  rw [CaseVariant, lowerAscii, String.toList_ofList, List.map_map]
  exact List.map_congr_left fun c _ => Char.toLower_toLower_eq_toLower c

/-- A token gives its host whatever the case of its letters is. -/
theorem urlHost?_map_toLower (hlaws : LowercaseLaws toLowercase) (token : List Char) :
    urlHost? toLowercase (token.map Char.toLower) = urlHost? toLowercase token := by
  have htrim : (token.map Char.toLower).dropWhile (fun c => !c.isAlphanum) =
      (token.dropWhile fun c => !c.isAlphanum).map Char.toLower := by
    simp only [List.dropWhile_map, Function.comp_def, isAlphanum_toLower]
  have hlow := hlaws.ignoresCase _ _
    (caseVariant_lowerAscii (String.ofList (token.dropWhile fun c => !c.isAlphanum)))
  rw [lowerAscii, String.toList_ofList] at hlow
  unfold urlHost?
  dsimp only
  rw [htrim, hlow]

theorem hasUrl_lowerAscii (hlaws : LowercaseLaws toLowercase) (text : String) :
    hasUrl toLowercase (lowerAscii text) = hasUrl toLowercase text := by
  have htokens : splitWhitespace (lowerAscii text).toList =
      (splitWhitespace text.toList).map (List.map Char.toLower) := by
    rw [lowerAscii, String.toList_ofList]
    refine (words_map Char.toLower _).trans ?_
    simp only [isWhitespace_toLower]
    rfl
  unfold hasUrl
  rw [htokens, List.findSome?_map]
  simp only [Function.comp_def, urlHost?_map_toLower hlaws]

/-- **The rules ignore ASCII case.** -/
theorem reasonFor_lowerAscii (hlaws : LowercaseLaws toLowercase) (text : String) :
    reasonFor toLowercase (lowerAscii text) = reasonFor toLowercase text := by
  have hbytes : (utf8 (lowerAscii text)).length = (utf8 text).length := by
    rw [utf8_length, utf8_length, lowerAscii, String.toList_ofList, List.map_map]
    simp only [Function.comp_def, utf8Size_toLower]
  unfold reasonFor containsCi
  rw [hbytes, hlaws.ignoresCase _ _ (caseVariant_lowerAscii text), hasUrl_lowerAscii hlaws]

theorem reasonFor_caseVariant (hlaws : LowercaseLaws toLowercase) {s t : String}
    (h : CaseVariant s.toList t.toList) : reasonFor toLowercase s = reasonFor toLowercase t := by
  have hlow : lowerAscii s = lowerAscii t := congrArg String.ofList h
  rw [← reasonFor_lowerAscii hlaws s, hlow, reasonFor_lowerAscii hlaws]

/-! ## Longer texts -/

/-- The lowercase of a part that white space cuts off stands in the lowercase of the whole. -/
theorem toLowercase_infix (hlaws : LowercaseLaws toLowercase) {pre s post : List Char}
    (hpre : EndsIn isWhitespace pre) (hpost : BeginsWith isWhitespace post) :
    (toLowercase (String.ofList s)).toList <:+:
      (toLowercase (String.ofList (pre ++ s ++ post))).toList := by
  have hright : (toLowercase (String.ofList s)).toList <:+:
      (toLowercase (String.ofList (s ++ post))).toList := by
    cases post with
    | nil => rw [List.append_nil]
    | cons c post =>
      rw [hlaws.acrossWhitespace s c post (hpost c rfl)]
      exact (List.prefix_append _ _).isInfix
  rcases hpre.eq_nil_or_snoc with rfl | ⟨pre', c, rfl, hc⟩
  · exact hright
  · rw [List.append_assoc, List.append_assoc, List.singleton_append,
      hlaws.acrossWhitespace pre' c (s ++ post) hc]
    exact hright.trans (List.suffix_append_of_suffix (List.suffix_cons _ _)).isInfix

theorem isSome_containsCi {haystack : String} {needles : List String} :
    (containsCi toLowercase haystack needles).isSome = true ↔
      ∃ n ∈ needles, (toLowercase n).toList <:+: (toLowercase haystack).toList := by
  simp only [containsCi, List.find?_isSome, decide_eq_true_eq]

theorem isSome_containsCi_mono {s t : String} {needles : List String}
    (h : (toLowercase s).toList <:+: (toLowercase t).toList)
    (hs : (containsCi toLowercase s needles).isSome = true) :
    (containsCi toLowercase t needles).isSome = true := by
  rw [isSome_containsCi] at hs ⊢
  obtain ⟨n, hn, hin⟩ := hs
  exact ⟨n, hn, hin.trans h⟩

/-- **A text is held back when white space cuts a part off that is.** -/
theorem isSome_reasonFor_surround (hlaws : LowercaseLaws toLowercase) {pre s post : List Char}
    (hpre : EndsIn isWhitespace pre) (hpost : BeginsWith isWhitespace post)
    (h : (reasonFor toLowercase (String.ofList s)).isSome = true) :
    (reasonFor toLowercase (String.ofList (pre ++ s ++ post))).isSome = true := by
  have hlow := toLowercase_infix hlaws (s := s) hpre hpost
  rw [isSome_reasonFor] at h ⊢
  rcases h with (hsize | htrifecta | hinjection) | hurl
  · refine .inl (.inl ?_)
    rw [utf8_length, String.toList_ofList] at hsize ⊢
    simp only [List.map_append, List.sum_append]
    omega
  · exact .inl (.inr (.inl (isSome_containsCi_mono hlow htrifecta)))
  · exact .inl (.inr (.inr (isSome_containsCi_mono hlow hinjection)))
  · refine .inr ?_
    rw [hasUrl_isSome_iff_token, String.toList_ofList] at hurl ⊢
    obtain ⟨token, hmem, hbad⟩ := hurl
    refine ⟨token, ?_, hbad⟩
    rw [words_append_right hpost, words_append_left hpre]
    exact List.mem_append_left _ (List.mem_append_right _ hmem)

/-! ## The pipeline -/

/-- The channel pipeline for one message: admit, then moderate. -/
def screen (toLowercase : String → String) (al : InboundAllowlist) (msg : InboundMessage) :
    Except InboundRejection Verdict :=
  (al.admitMessage msg).map (moderate toLowercase)

theorem screen_eq_quarantine {al : InboundAllowlist} {msg : InboundMessage} {sender : SenderKey}
    {reason : ModerationReason} :
    screen toLowercase al msg = .ok (.quarantine sender reason) ↔
      al.isAllowed msg.sender = true ∧ msg.sender = sender ∧
        reasonFor toLowercase (stripInvisible msg.text) = some reason := by
  unfold screen
  cases hal : al.isAllowed msg.sender with
  | false =>
    rw [InboundAllowlist.admitMessage_unknown hal]
    simp [Except.map]
  | true =>
    rw [InboundAllowlist.admitMessage_allowed hal, Except.map, moderate_eq]
    simp only [InboundMessage.sanitized]
    cases reasonFor toLowercase (stripInvisible msg.text) with
    | none => simp
    | some r => simp

theorem reasonFor_disguise (hlaws : LowercaseLaws toLowercase) {s t : List Char}
    (h : Disguise s t) :
    reasonFor toLowercase (String.ofList (visible t)) =
      reasonFor toLowercase (String.ofList (visible s)) := by
  refine (reasonFor_caseVariant hlaws ?_).symm
  rw [String.toList_ofList, String.toList_ofList]
  exact h.visible

theorem isSome_reasonFor_evasion (hlaws : LowercaseLaws toLowercase) {s t : List Char}
    (h : Evasion s t) (hs : (reasonFor toLowercase (String.ofList (visible s))).isSome = true) :
    (reasonFor toLowercase (String.ofList (visible t))).isSome = true := by
  cases h with
  | disguise hd =>
    rw [reasonFor_disguise hlaws hd]
    exact hs
  | surround hpre hpost =>
    rw [visible, List.filter_append, List.filter_append]
    exact isSome_reasonFor_surround hlaws (endsIn_visible hpre) (beginsWith_visible hpost) hs

/-- **Quarantine is closed under evasions.** A message that is quarantined stays so under any edits of
its text, and for the same reason when they are disguises. -/
theorem quarantine_evasion_closed (hlaws : LowercaseLaws toLowercase) {al : InboundAllowlist}
    {msg : InboundMessage} {sender : SenderKey} {reason : ModerationReason}
    (hq : screen toLowercase al msg = .ok (.quarantine sender reason)) :
    (∀ text, Relation.ReflTransGen Evasion msg.text.toList text.toList →
      ∃ reason', screen toLowercase al { msg with text } = .ok (.quarantine sender reason')) ∧
    ∀ text, Relation.ReflTransGen Disguise msg.text.toList text.toList →
      screen toLowercase al { msg with text } = .ok (.quarantine sender reason) := by
  obtain ⟨hallowed, hsender, hreason⟩ := screen_eq_quarantine.mp hq
  simp only [screen_eq_quarantine]
  constructor
  · intro text hedits
    have hkeep : ∀ t, Relation.ReflTransGen Evasion msg.text.toList t →
        (reasonFor toLowercase (String.ofList (visible t))).isSome = true := by
      intro t ht
      induction ht with
      | refl =>
        rw [← toList_stripInvisible, String.ofList_toList, hreason, Option.isSome_some]
      | tail _ hstep ih => exact isSome_reasonFor_evasion hlaws hstep ih
    obtain ⟨reason', hr⟩ := Option.isSome_iff_exists.mp (hkeep _ hedits)
    rw [← toList_stripInvisible, String.ofList_toList] at hr
    exact ⟨reason', hallowed, hsender, hr⟩
  · intro text hedits
    have hkeep : ∀ t, Relation.ReflTransGen Disguise msg.text.toList t →
        reasonFor toLowercase (String.ofList (visible t)) = some reason := by
      intro t ht
      induction ht with
      | refl => rw [← toList_stripInvisible, String.ofList_toList, hreason]
      | tail _ hstep ih => rw [reasonFor_disguise hlaws hstep, ih]
    have hr := hkeep _ hedits
    rw [← toList_stripInvisible, String.ofList_toList] at hr
    exact ⟨hallowed, hsender, hr⟩

theorem lowercaseLaws_lowerAscii : LowercaseLaws lowerAscii where
  ignoresCase _ _ h := congrArg String.ofList h
  acrossWhitespace x c y hc := by
    have hself : c.toLower = c := by
      refine toLower_of_not_alpha ?_
      by_contra hne
      rw [isWhitespace_of_isAlpha ((Bool.not_eq_false _).mp hne)] at hc
      cases hc
    simp only [lowerAscii, String.toList_ofList, List.map_append, List.map_cons, hself]

/-- A role override from an allowed sender, in capitals, with an invisible character, and in a longer
text. -/
theorem quarantine_evasion_closed_system :
    let sender : SenderKey := ⟨.fill 32 1⟩
    let al : InboundAllowlist := ⟨{sender}⟩
    (∃ reason, screen lowerAscii al ⟨sender, "ok S\u200bYSTEM:", 7⟩ =
      .ok (.quarantine sender reason)) ∧
    screen lowerAscii al ⟨sender, "SYSTEM:", 7⟩ =
      .ok (.quarantine sender (.injectionPattern "system:")) := by
  intro sender al
  have hq : screen lowerAscii al ⟨sender, "system:", 7⟩ =
      .ok (.quarantine sender (.injectionPattern "system:")) := by decide +kernel
  have hupper : Disguise "system:".toList "SYSTEM:".toList := .recase (by decide +kernel)
  have hinsert : Disguise "SYSTEM:".toList "S\u200bYSTEM:".toList :=
    .insert (x := ['S']) (y := "YSTEM:".toList) (c := '\u200b') (by decide)
  have hbefore : Evasion "S\u200bYSTEM:".toList "ok S\u200bYSTEM:".toList := by
    rw [show "ok S\u200bYSTEM:".toList = (['o', 'k'] ++ [' ']) ++ "S\u200bYSTEM:".toList ++ [] by
      decide +kernel]
    exact .surround (endsIn_snoc (by decide)) nofun
  obtain ⟨hall, hdisguise⟩ := quarantine_evasion_closed lowercaseLaws_lowerAscii hq
  exact ⟨hall _ (((Relation.ReflTransGen.single (.disguise hupper)).tail
    (.disguise hinsert)).tail hbefore), hdisguise _ (.single hupper)⟩

end

end GooseClaw
