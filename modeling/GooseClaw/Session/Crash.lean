import GooseClaw.Session.Log

/-!
# Cut appends

What a session's log is worth when appends are cut short. A cut that leaves nothing of its line, or
the whole JSON text, is one the log survives: the text without its newline still loads, until the next
append is written straight behind it. Every other cut makes the session unreadable, with all that was
acknowledged in it.

`Log` is the shape of a file that loads: whole lines, and perhaps one last text without a newline. A
step keeps it exactly when it is `Clean`, and `crash_safe_iff` carries this over whole runs.
-/

namespace GooseClaw

open Found

/-- What more is known of `serde_json` and the texts it writes: they begin with a visible character,
an unfinished one is not read, and nothing but white space may stand behind a whole one. -/
structure Serde.Strict (serde : Serde) : Prop where
  visible : ∀ {event text}, serde.toString event = .ok text →
    ∀ c ∈ text.toList.head?, isWhitespace c = false
  unfinished : ∀ {event text u v}, serde.toString event = .ok text → text.toList = u ++ v →
    v ≠ [] → ∃ e, serde.fromStr (String.ofList u) = .error e
  trailing : ∀ {event text u other}, serde.toString event = .ok text →
    serde.fromStr (String.ofList (text.toList ++ u)) = .ok other → ∀ c ∈ u, isWhitespace c = true

namespace JsonlSessionStore

variable {serde : Serde} {F : Type*} {resolve : String → F} {store : JsonlSessionStore}

/-! ## Logs that load -/

/-- Whole lines, and the events of the text without a newline behind them. -/
inductive Log (serde : Serde) : List SessionEvent → List SessionEvent → List UInt8 → Prop
  | whole {events front} : Complete serde events front → Log serde events [] front
  | unended {events front event text} : Complete serde events front →
    serde.toString event = .ok text → Log serde events [event] (front ++ utf8 text)

theorem utf8_ne_nil_of_toString (hlaw : serde.Lawful) {event : SessionEvent} {text : String}
    (h : serde.toString event = .ok text) : utf8 text ≠ [] := by
  intro hnil
  have hempty : text = "" := utf8_inj.mp hnil
  have hblank := hlaw.notBlank h
  rw [hempty] at hblank
  cases hblank

/-- A log loads. -/
theorem Log.load (hlaw : serde.Lawful) {events last : List SessionEvent} {bytes : List UInt8}
    (h : Log serde events last bytes) :
    loadLoop serde [] (lines isNewline bytes) = .ok (events ++ last) := by
  cases h with
  | whole hfront =>
    have hread := loadLoop_complete hlaw hfront [] []
    rw [List.append_nil] at hread
    rw [hread, List.append_nil]
    rfl
  | unended hfront htext =>
    rw [loadLoop_complete hlaw hfront,
      lines_of_free (isNewline_of_noNewline (hlaw.noNewline htext))
        (utf8_ne_nil_of_toString hlaw htext),
      loadLoop_cons hlaw htext (readLine_text (hlaw.noNewline htext))]
    rfl

/-- A log that ends in a newline is whole. -/
theorem Log.complete (hlaw : serde.Lawful) {events last : List SessionEvent} {bytes : List UInt8}
    (h : Log serde events last bytes) (hends : EndsIn isNewline bytes) :
    Complete serde events bytes := by
  cases h with
  | whole hfront => exact hfront
  | unended _ htext =>
    have hfree := isNewline_of_noNewline (hlaw.noNewline htext)
    exact absurd (hends.eq_nil_of_append hfree) (utf8_ne_nil_of_toString hlaw htext)

/-! ## Steps a log survives -/

/-- The append writes nothing, or puts a whole text at the beginning of a line. -/
def CleanAt (serde : Serde) (bytes : List UInt8) (c : Append) : Prop :=
  written serde c = [] ∨
    EndsIn isNewline bytes ∧
      ∃ text, serde.toString c.event = .ok text ∧ utf8 text <+: written serde c

/-- What reaches the file is the line, or a part of it without the newline. -/
theorem written_cases (serde : Serde) (c : Append) :
    written serde c = [] ∨ ∃ text, serde.toString c.event = .ok text ∧
      (written serde c = utf8 text ++ [newline] ∨ written serde c <+: utf8 text) := by
  obtain ⟨session, event, fate⟩ := c
  cases htext : serde.toString event with
  | error e =>
    left
    cases fate <;> simp only [written, htext]
  | ok text =>
    cases fate with
    | refused e => exact .inl rfl
    | cut n report =>
      refine .inr ⟨text, rfl, ?_⟩
      simp only [written, htext, utf8_push_newline]
      exact List.prefix_concat_iff.mp (List.take_prefix n _)
    | completes =>
      refine .inr ⟨text, rfl, .inl ?_⟩
      simp only [written, htext, utf8_push_newline]

/-- The file loads, and the events acknowledged so far are on its whole lines. -/
def Safe (serde : Serde) (bytes : List UInt8) (acked : List SessionEvent) : Prop :=
  ∃ events last, Log serde events last bytes ∧ acked.Sublist events

/-- A clean append keeps what was safe. -/
theorem Safe.append (hlaw : serde.Lawful) {bytes : List UInt8} {acked : List SessionEvent}
    {c : Append} (h : Safe serde bytes acked) (hclean : CleanAt serde bytes c) :
    Safe serde (bytes ++ written serde c) acked := by
  obtain ⟨events, last, hlog, hacked⟩ := h
  rcases hclean with hnone | ⟨hends, text, htext, hwhole⟩
  · rw [hnone, List.append_nil]
    exact ⟨events, last, hlog, hacked⟩
  · have hfront := hlog.complete hlaw hends
    rcases written_cases serde c with hnone | ⟨text', htext', hline | hpart⟩
    · rw [hnone, List.append_nil]
      exact ⟨events, last, hlog, hacked⟩
    · rw [hline]
      exact ⟨_, [], .whole (hfront.snoc htext'), hacked.trans (List.sublist_append_left _ _)⟩
    · obtain rfl : text = text' := Except.ok.inj (htext.symm.trans htext')
      rw [hpart.eq_of_length_le hwhole.length_le]
      exact ⟨events, [c.event], .unended hfront htext, hacked⟩

/-- A clean append that writes its whole line makes its event safe. -/
theorem Safe.append_line (hlaw : serde.Lawful) {bytes : List UInt8} {acked : List SessionEvent}
    {c : Append} {text : String} (h : Safe serde bytes acked) (hclean : CleanAt serde bytes c)
    (htext : serde.toString c.event = .ok text) (hline : written serde c = utf8 text ++ [newline]) :
    Safe serde (bytes ++ written serde c) (acked ++ [c.event]) := by
  obtain ⟨events, last, hlog, hacked⟩ := h
  rcases hclean with hnone | ⟨hends, -⟩
  · rw [hline] at hnone
    exact absurd hnone (List.append_ne_nil_of_right_ne_nil _ nofun)
  · rw [hline]
    exact ⟨_, [], .whole ((hlog.complete hlaw hends).snoc htext), hacked.append_right _⟩

/-! ## Steps a log does not survive -/

/-- A line `load` stops at. -/
def Unreadable (serde : Serde) (raw : List UInt8) : Prop :=
  ∀ out rest, ∃ e, loadLoop serde out (raw :: rest) = .error e

theorem unreadable_of_fromStr {raw : List UInt8} {line e : String} (hraw : readLine raw = .ok line)
    (hblank : isBlank line.toList = false) (hline : serde.fromStr line = .error e) :
    Unreadable serde raw := by
  intro out rest
  refine ⟨.invalidData e, ?_⟩
  simp only [loadLoop, hraw, hblank, hline, Bool.false_eq_true, if_false]

/-- Bytes of a text without a newline either decode to a part of it, or are no line at all. -/
theorem unreadable_of_part {raw : List UInt8} {text : String} (hfree : '\n' ∉ text.toList)
    (hpart : raw <+: utf8 text)
    (h : ∀ line : String, utf8 line = raw → line.toList <+: text.toList →
      isBlank line.toList = false ∧ ∃ e, serde.fromStr line = .error e) :
    Unreadable serde raw := by
  cases hdecode : decodeUtf8 raw with
  | none =>
    intro out rest
    refine ⟨.invalidData "stream did not contain valid UTF-8", ?_⟩
    simp only [loadLoop, readLine, hdecode]
  | some line =>
    have hraw : utf8 line = raw := decodeUtf8_eq_some.mp hdecode
    obtain ⟨rest, hrest⟩ := hpart
    rw [← hraw] at hrest
    have hbegins := prefix_of_utf8_append hrest
    obtain ⟨hblank, e, he⟩ := h line hraw hbegins
    have hread : readLine raw = .ok line := by
      rw [← hraw]
      exact readLine_text fun hmem => hfree (hbegins.subset hmem)
    exact unreadable_of_fromStr hread hblank he

/-- A visible first character is nothing blank. -/
theorem exists_visible {u text : List Char} (hu : u ≠ []) (hbegins : u <+: text)
    (hvisible : ∀ c ∈ text.head?, isWhitespace c = false) : ∃ c ∈ u, isWhitespace c = false := by
  cases u with
  | nil => exact absurd rfl hu
  | cons c u =>
    obtain ⟨v, rfl⟩ := hbegins
    exact ⟨c, List.mem_cons_self, hvisible c rfl⟩

/-- A part of a text, on a line of its own, is not read. -/
theorem unreadable_torn (hlaw : serde.Lawful) (hstrict : serde.Strict) {event : SessionEvent}
    {text : String} {raw : List UInt8} (htext : serde.toString event = .ok text) (hne : raw ≠ [])
    (hpart : raw <+: utf8 text) (hcut : ¬ utf8 text <+: raw) : Unreadable serde raw := by
  refine unreadable_of_part (hlaw.noNewline htext) hpart ?_
  rintro line rfl hbegins
  have hline : line.toList ≠ [] := by
    intro hnil
    rw [String.toList_eq_nil_iff] at hnil
    exact hne (by rw [hnil]; rfl)
  obtain ⟨c, hc, hvisible⟩ := exists_visible hline hbegins (hstrict.visible htext)
  refine ⟨List.all_eq_false.mpr ⟨c, hc, by rw [hvisible]; exact Bool.false_ne_true⟩, ?_⟩
  obtain ⟨v, hv⟩ := hbegins
  have hrest : v ≠ [] := by
    rintro rfl
    rw [List.append_nil, String.toList_inj] at hv
    exact hcut (hv ▸ List.prefix_rfl)
  have herror := hstrict.unfinished htext hv.symm hrest
  rwa [String.ofList_toList] at herror

/-- A text with the beginning of another behind it is not read. -/
theorem not_read_glued (hlaw : serde.Lawful) (hstrict : serde.Strict) {first second : SessionEvent}
    {text text' line : String} {u : List Char} (htext : serde.toString first = .ok text)
    (htext' : serde.toString second = .ok text') (hu : u ≠ []) (hpart : u <+: text'.toList)
    (hline : line.toList = text.toList ++ u) :
    isBlank line.toList = false ∧ ∃ e, serde.fromStr line = .error e := by
  constructor
  · have hblank := hlaw.notBlank htext
    unfold isBlank at hblank ⊢
    rw [hline, List.all_append, hblank, Bool.false_and]
  · cases hread : serde.fromStr line with
    | error e => exact ⟨e, rfl⟩
    | ok other =>
      have hglued : serde.fromStr (String.ofList (text.toList ++ u)) = .ok other := by
        rw [← hline, String.ofList_toList, hread]
      obtain ⟨c, hc, hvisible⟩ := exists_visible hu hpart (hstrict.visible htext')
      have hwhite := hstrict.trailing htext hglued c hc
      rw [hvisible] at hwhite
      cases hwhite

/-- Whatever is written behind a text without a newline makes one unreadable line with it. -/
theorem unreadable_glued (hlaw : serde.Lawful) (hstrict : serde.Strict) {first second : SessionEvent}
    {text text' : String} {bytes : List UInt8} (htext : serde.toString first = .ok text)
    (htext' : serde.toString second = .ok text') (hne : bytes ≠ [])
    (hbytes : bytes = utf8 text' ++ [newline] ∨ bytes <+: utf8 text') :
    Unreadable serde (utf8 text ++ bytes) := by
  rcases hbytes with rfl | hpart
  · have hreturn : '\r' ∉ (text ++ text').toList := by
      rw [String.toList_append, List.mem_append]
      exact not_or.mpr ⟨hlaw.noReturn htext, hlaw.noReturn htext'⟩
    have hread := readLine_line hreturn
    rw [utf8_append, List.append_assoc] at hread
    have hu : text'.toList ≠ [] := by
      rw [ne_eq, String.toList_eq_nil_iff]
      rintro rfl
      exact utf8_ne_nil_of_toString hlaw htext' rfl
    obtain ⟨hblank, e, he⟩ := not_read_glued hlaw hstrict htext htext' hu List.prefix_rfl
      (String.toList_append (s := text) (t := text'))
    exact unreadable_of_fromStr hread hblank he
  · have hfree : '\n' ∉ (text ++ text').toList := by
      rw [String.toList_append, List.mem_append]
      exact not_or.mpr ⟨hlaw.noNewline htext, hlaw.noNewline htext'⟩
    refine unreadable_of_part hfree ?_ ?_
    · rw [utf8_append]
      exact (List.prefix_append_right_inj _).mpr hpart
    · intro line hline hbegins
      obtain ⟨u, hu⟩ := prefix_of_utf8_append hline.symm
      rw [← hu, String.toList_append, List.prefix_append_right_inj] at hbegins
      refine not_read_glued hlaw hstrict htext htext' ?_ hbegins hu.symm
      rintro rfl
      rw [List.append_nil, String.toList_inj] at hu
      rw [← hu] at hline
      exact hne (List.append_cancel_left (hline.symm.trans (List.append_nil _).symm))

/-- **An append that is not clean makes the log unreadable.** -/
theorem Log.load_unclean (hlaw : serde.Lawful) (hstrict : serde.Strict)
    {events last : List SessionEvent} {bytes : List UInt8} {c : Append}
    (h : Log serde events last bytes) (hunclean : ¬ CleanAt serde bytes c) :
    ∃ e, loadLoop serde [] (lines isNewline (bytes ++ written serde c)) = .error e := by
  have hne : written serde c ≠ [] := fun hnone => hunclean (.inl hnone)
  obtain ⟨text, htext, hwritten⟩ := (written_cases serde c).resolve_left hne
  cases h with
  | whole hfront =>
    have hcut : ¬ utf8 text <+: written serde c :=
      fun hwhole => hunclean (.inr ⟨hfront.endsIn, text, htext, hwhole⟩)
    have hpart : written serde c <+: utf8 text := by
      refine hwritten.resolve_left fun hline => hcut ?_
      rw [hline]
      exact List.prefix_append _ _
    have hfree : ∀ b ∈ written serde c, isNewline b = false :=
      fun b hb => isNewline_of_noNewline (hlaw.noNewline htext) b (hpart.subset hb)
    rw [loadLoop_complete hlaw hfront, lines_of_free hfree hne]
    exact unreadable_torn hlaw hstrict htext hne hpart hcut _ _
  | @unended front first text' hfront htext' =>
    have hglued := unreadable_glued hlaw hstrict htext' htext hne hwritten
    have hfree := isNewline_of_noNewline (hlaw.noNewline htext')
    rw [List.append_assoc, loadLoop_complete hlaw hfront]
    rcases hwritten with hline | hpart
    · have hboth : ∀ b ∈ utf8 text' ++ utf8 text, isNewline b = false :=
        List.forall_mem_append.mpr ⟨hfree, isNewline_of_noNewline (hlaw.noNewline htext)⟩
      have hlines := lines_append_cons hboth (s := newline) rfl []
      rw [hline] at hglued ⊢
      rw [← List.append_assoc] at hglued ⊢
      rw [hlines]
      exact hglued _ _
    · have hpartFree : ∀ b ∈ written serde c, isNewline b = false :=
        fun b hb => isNewline_of_noNewline (hlaw.noNewline htext) b (hpart.subset hb)
      have hboth : ∀ b ∈ utf8 text' ++ written serde c, isNewline b = false :=
        List.forall_mem_append.mpr ⟨hfree, hpartFree⟩
      rw [lines_of_free hboth (List.append_ne_nil_of_right_ne_nil _ hne)]
      exact hglued _ _

/-! ## Runs -/

/-- The events of a session whose append returned `Ok`, in order. -/
def acknowledged (sessionId : String) (log : List (Append × AppendReply)) : List SessionEvent :=
  log.filterMap fun x => if x.1.session = sessionId ∧ x.2.isOk then some x.1.event else none

variable (serde resolve store) in
/-- The session loads, with every event that was acknowledged, in order. -/
def Intact (log : List (Append × AppendReply)) (disk : Disk F) (sessionId : String) : Prop :=
  ∃ events, store.load serde resolve disk sessionId = .ok events ∧
    (acknowledged sessionId log).Sublist events

variable (serde resolve store) in
/-- The append is clean at what its session's file holds. -/
def Clean (disk : Disk F) (c : Append) : Prop :=
  CleanAt serde (disk.content (resolve (store.pathFor c.session))) c

theorem Safe.intact (hlaw : serde.Lawful) {log : List (Append × AppendReply)} {disk : Disk F}
    {s : String}
    (h : Safe serde (disk.content (resolve (store.pathFor s))) (acknowledged s log)) :
    Intact serde resolve store log disk s := by
  obtain ⟨events, last, hlog, hacked⟩ := h
  refine ⟨events ++ last, ?_, hacked.trans (List.sublist_append_left events last)⟩
  rw [load_eq, hlog.load hlaw]

variable [DecidableEq F]

/-- A clean append keeps every session safe. -/
theorem safe_handle (hlaw : serde.Lawful) {log : List (Append × AppendReply)} {disk : Disk F}
    {c : Append} (hclean : Clean serde resolve store disk c)
    (h : ∀ s, Safe serde (disk.content (resolve (store.pathFor s))) (acknowledged s log))
    (s : String) :
    Safe serde (((store.service serde resolve).handle disk c).2.content
        (resolve (store.pathFor s)))
      (acknowledged s (log ++ [(c, ((store.service serde resolve).handle disk c).1)])) := by
  have hacked := filterMap_snoc (fun x : Append × AppendReply =>
    if x.1.session = s ∧ x.2.isOk then some x.1.event else none) log
    (c, ((store.service serde resolve).handle disk c).1)
  have hcontent := content_append serde resolve store disk c
    (resolve (store.pathFor s))
  change Safe serde ((store.append serde resolve disk c.session c.event c.fate).2.content _) _
  unfold acknowledged
  rw [hacked, hcontent]
  by_cases hsame : resolve (store.pathFor s) = resolve (store.pathFor c.session)
  · have hcleanAt : CleanAt serde (disk.content (resolve (store.pathFor s))) c := by
      rw [hsame]
      exact hclean
    rw [if_pos hsame]
    split
    · obtain ⟨text, htext, hline⟩ := written_of_isOk (And.right ‹_›)
      exact (h s).append_line hlaw hcleanAt htext hline
    · rw [Option.toList_none, List.append_nil]
      exact (h s).append hlaw hcleanAt
  · have hother : c.session ≠ s := by
      rintro rfl
      exact hsame rfl
    rw [if_neg hsame, if_neg (fun hboth => hother hboth.1), Option.toList_none, List.append_nil]
    exact h s

/-- After clean appends every session is safe. -/
theorem safe_of_along (hlaw : serde.Lawful) {start : Disk F} {calls : List Append}
    (hstart : ∀ s, start (resolve (store.pathFor s)) = none)
    (h : (store.service serde resolve).Along start (Clean serde resolve store) calls) (s : String) :
    Safe serde (((store.service serde resolve).after start calls).content
        (resolve (store.pathFor s)))
      (acknowledged s ((store.service serde resolve).exchanges start calls)) := by
  have hrun := (store.service serde resolve).history_along
    (P := fun log disk => ∀ s,
      Safe serde (disk.content (resolve (store.pathFor s))) (acknowledged s log)) ?_ ?_ h
  · exact hrun s
  · intro s
    unfold Disk.content
    rw [hstart]
    exact ⟨[], [], .whole .nil, List.Sublist.refl _⟩
  · intro log disk c hsafe hclean
    exact safe_handle hlaw hclean hsafe

/-- After an append that is not clean its session does not load. -/
theorem not_intact_of_unclean (hlaw : serde.Lawful) (hstrict : serde.Strict) {start : Disk F}
    {calls : List Append} {c : Append} (hstart : ∀ s, start (resolve (store.pathFor s)) = none)
    (hclean : (store.service serde resolve).Along start (Clean serde resolve store) calls)
    (hunclean : ¬ Clean serde resolve store ((store.service serde resolve).after start calls) c) :
    ¬ Intact serde resolve store ((store.service serde resolve).exchanges start (calls ++ [c]))
      ((store.service serde resolve).after start (calls ++ [c])) c.session := by
  rintro ⟨loaded, hloaded, -⟩
  obtain ⟨events, last, hlog, -⟩ := safe_of_along hlaw hstart hclean c.session
  obtain ⟨e, he⟩ := hlog.load_unclean hlaw hstrict hunclean
  have hcontent := content_append serde resolve store
    ((store.service serde resolve).after start calls) c (resolve (store.pathFor c.session))
  rw [if_pos rfl] at hcontent
  rw [Service.after_snoc, load_eq] at hloaded
  rw [← hcontent] at he
  cases hloaded.symm.trans he

/-- **Crash safety.** At every point of a run every session loads with all that was acknowledged, if and
only if every append of the run is clean: it writes nothing, or a whole text at the beginning of a
line. -/
theorem crash_safe_iff (hlaw : serde.Lawful) (hstrict : serde.Strict) {start : Disk F}
    (hstart : ∀ s, start (resolve (store.pathFor s)) = none) (calls : List Append) :
    (∀ done later, calls = done ++ later → ∀ s,
      Intact serde resolve store ((store.service serde resolve).exchanges start done)
        ((store.service serde resolve).after start done) s) ↔
      (store.service serde resolve).Along start (Clean serde resolve store) calls := by
  constructor
  · intro h
    induction calls using List.reverseRecOn with
    | nil => exact every_nil _
    | append_singleton calls c ih =>
      have hclean := ih fun done later heq => h done (later ++ [c]) (by rw [heq, List.append_assoc])
      refine (Service.along_snoc _).mpr ⟨hclean, ?_⟩
      by_contra hunclean
      exact not_intact_of_unclean hlaw hstrict hstart hclean hunclean
        (h (calls ++ [c]) [] (List.append_nil _).symm c.session)
  · rintro h done later rfl s
    exact (safe_of_along hlaw hstart (Every.of_append h) s).intact hlaw

/-! ## The sample, cut -/

/-- One of the two texts the sample reads and writes. -/
def IsSampleText (text : String) : Prop := text = sampleCreatedText ∨ text = samplePromptText

theorem isSampleText_of_toString {event : SessionEvent} {text : String}
    (h : sampleSerde.toString event = .ok text) : IsSampleText text :=
  (sampleSerde_toString h).imp And.right And.right

theorem isSampleText_of_fromStr {event : SessionEvent} {text : String}
    (h : sampleSerde.fromStr text = .ok event) : IsSampleText text := by
  unfold sampleSerde at h
  dsimp only at h
  split at h
  · exact .inl ‹_›
  · split at h
    · exact .inr ‹_›
    · cases h

/-- No sample text is the beginning of another. -/
theorem IsSampleText.eq_of_append {s t : String} {u : List Char} (hs : IsSampleText s)
    (ht : IsSampleText t) (h : t.toList = s.toList ++ u) : u = [] := by
  have hbegins : s.toList <+: t.toList := ⟨u, h.symm⟩
  have heq : s = t := by
    rcases hs with rfl | rfl <;> rcases ht with rfl | rfl
    · rfl
    · exact absurd hbegins (by decide)
    · exact absurd hbegins (by decide)
    · rfl
  rw [heq] at h
  exact List.self_eq_append_right.mp h

theorem sampleSerde_strict : sampleSerde.Strict where
  visible := by
    intro event text h c hc
    have hbrace : text.toList.head? = some '\x7b' := by
      rcases isSampleText_of_toString h with rfl | rfl <;> decide
    rw [hbrace] at hc
    cases hc
    decide
  unfinished := by
    intro event text u v h hsplit hv
    cases hread : sampleSerde.fromStr (String.ofList u) with
    | error e => exact ⟨e, rfl⟩
    | ok other =>
      refine absurd ((isSampleText_of_fromStr hread).eq_of_append (isSampleText_of_toString h) ?_) hv
      rw [String.toList_ofList, hsplit]
  trailing := by
    intro event text u other h hread
    have hu : u = [] := by
      refine (isSampleText_of_toString h).eq_of_append (isSampleText_of_fromStr hread) ?_
      rw [String.toList_ofList]
    rw [hu]
    nofun

/-- One append, and a second that a crash cuts before its first byte. -/
def sampleRun : List Append :=
  [⟨"a1", sampleCreated, .completes⟩, ⟨"a1", samplePrompt, .cut 0 none⟩]

theorem clean_sampleCreated :
    ((⟨"sessions"⟩ : JsonlSessionStore).service sampleSerde id).Along (fun _ => none)
      (Clean sampleSerde id ⟨"sessions"⟩) [⟨"a1", sampleCreated, .completes⟩] := by
  refine (Service.along_snoc _).mpr ⟨every_nil _, .inr ⟨endsIn_nil, sampleCreatedText, rfl, ?_⟩⟩
  change utf8 sampleCreatedText <+: utf8 (sampleCreatedText.push '\n')
  rw [utf8_push_newline]
  exact List.prefix_append _ _

theorem crash_safe_sample :
    Intact sampleSerde id ⟨"sessions"⟩
      (((⟨"sessions"⟩ : JsonlSessionStore).service sampleSerde id).exchanges (fun _ => none)
        sampleRun)
      (((⟨"sessions"⟩ : JsonlSessionStore).service sampleSerde id).after (fun _ => none) sampleRun)
      "a1" :=
  (crash_safe_iff sampleSerde_lawful sampleSerde_strict (fun _ => rfl) sampleRun).mpr
    ((Service.along_snoc _).mpr ⟨clean_sampleCreated, .inl rfl⟩) sampleRun []
    (List.append_nil _).symm "a1"

/-- The process ends with five bytes of the second line written, and the session it acknowledged an
event of does not load. -/
theorem torn_append_unreadable :
    ¬ Intact sampleSerde id ⟨"sessions"⟩
      (((⟨"sessions"⟩ : JsonlSessionStore).service sampleSerde id).exchanges (fun _ => none)
        [⟨"a1", sampleCreated, .completes⟩, ⟨"a1", samplePrompt, .cut 5 none⟩])
      (((⟨"sessions"⟩ : JsonlSessionStore).service sampleSerde id).after (fun _ => none)
        [⟨"a1", sampleCreated, .completes⟩, ⟨"a1", samplePrompt, .cut 5 none⟩]) "a1" := by
  refine not_intact_of_unclean sampleSerde_lawful sampleSerde_strict (fun _ => rfl)
    clean_sampleCreated ?_
  rintro (hnone | ⟨-, text, htext, hwhole⟩)
  · exact absurd hnone (by decide)
  · rcases sampleSerde_toString htext with ⟨hevent, -⟩ | ⟨-, rfl⟩
    · exact absurd hevent (by decide)
    · exact absurd hwhole (by decide)

end JsonlSessionStore

end GooseClaw
