import GooseClaw.Vault.Server

/-!
# Refusals

What the client makes of a tool call that was answered with `isError`.

A refused `vault_write` may report a conflict, and then the local copy is to be dropped and the note
read again. `try_write` looks for the conflict only in a body that parsed as JSON, so a conflict
reported in plain text is an error of the protocol; and it also takes the bare word `CONFLICT`, so any
refusal that mentions the word in a path or a message is taken for one. `refusals_classified_iff` says
for which texts the two mistakes are not made.
-/

namespace GooseClaw

open Found VaultClient

/-! ## What a reply says -/

section Replies

variable (fromStr : String → Except String Json)

/-- The text mentions a conflict. -/
def MentionsConflict (text : String) : Prop := "CONFLICT".toList <:+: text.toList

/-- The body is JSON and its error is a conflict. -/
def NamesConflict (text : String) : Prop :=
  ∃ body, fromStr text = .ok body ∧ body.getStr "error" = some "CONFLICT"

/-- The refusal reports a version conflict: a JSON body by its error, plain text by the word. -/
def ReportsConflict (text : String) : Prop :=
  match fromStr text with
  | .ok body => body.getStr "error" = some "CONFLICT"
  | .error _ => MentionsConflict text

/-- The note a `vault_read` reply carries: its content and its version. -/
def noteOf : ToolReply → Option (String × Option String)
  | .ok (text, false) =>
    match fromStr text with
    | .ok body => some ((body.getStr "content").getD "", body.getStr "expectedVersion")
    | .error _ => none
  | _ => none

variable {fromStr}

theorem isConflict_iff {text : String} {body : Json} (hbody : fromStr text = .ok body) :
    isConflict text body = true ↔ NamesConflict fromStr text ∨ MentionsConflict text := by
  rw [isConflict, Bool.or_eq_true, beq_iff_eq, decide_eq_true_iff]
  constructor
  · rintro (h | h)
    · exact .inl ⟨body, hbody, h⟩
    · exact .inr h
  · rintro (⟨body', hbody', h⟩ | h)
    · rw [hbody, Except.ok.injEq] at hbody'
      exact .inl (hbody' ▸ h)
    · exact .inr h

theorem reportsConflict_of_ok {text : String} {body : Json} (hbody : fromStr text = .ok body) :
    ReportsConflict fromStr text ↔ NamesConflict fromStr text := by
  unfold ReportsConflict
  simp only [hbody]
  constructor
  · intro h
    exact ⟨body, hbody, h⟩
  · rintro ⟨body', hbody', h⟩
    rw [hbody, Except.ok.injEq] at hbody'
    exact hbody' ▸ h

theorem reportsConflict_of_error {text e : String} (hbody : fromStr text = .error e) :
    ReportsConflict fromStr text ↔ MentionsConflict text := by
  unfold ReportsConflict
  simp only [hbody]

theorem not_namesConflict {text e : String} (hbody : fromStr text = .error e) :
    ¬ NamesConflict fromStr text := by
  rintro ⟨body, hbody', -⟩
  rw [hbody] at hbody'
  cases hbody'

/-- A fetch that is answered with a note ends with it. -/
theorem Phase.readAnswered_note {why : Errand} {path content : String} {version : Option String}
    {c : VaultClient} {now : Instant} {reply : ToolReply}
    (h : noteOf fromStr reply = some (content, version)) :
    readAnswered fromStr why path c now reply =
      fetched why ⟨path, content, version, false⟩ path
        (learned c path ⟨content, version, now⟩) := by
  rcases reply with m | ⟨text, _ | _⟩
  · cases h
  · cases hbody : fromStr text with
    | error e => simp only [noteOf, hbody, reduceCtorEq] at h
    | ok body =>
      simp only [noteOf, hbody, Option.some.injEq, Prod.mk.injEq] at h
      obtain ⟨rfl, rfl⟩ := h
      simp only [readAnswered, hbody]
  · cases h

/-- A fetch that is answered without a note fails. -/
theorem Phase.readAnswered_no_note (why : Errand) (path : String) (c : VaultClient)
    (now : Instant) {reply : ToolReply} (h : noteOf fromStr reply = none) :
    ∃ e, readAnswered fromStr why path c now reply = fetchFailed why e path c := by
  rcases reply with m | ⟨text, _ | _⟩
  · exact ⟨_, rfl⟩
  · cases hbody : fromStr text with
    | error e => exact ⟨.protocol e, by simp only [readAnswered, hbody]⟩
    | ok body => simp only [noteOf, hbody, reduceCtorEq] at h
  · exact ⟨_, rfl⟩

end Replies

/-! ## Points of a call -/

/-- What an answer adds to a cache: the note a `vault_read` brought. -/
def hear (fromStr : String → Except String Json) (held : Cache) : (Σ q : Ask, q.Answer) → Cache
  | ⟨.callTool _ (.vaultRead path), (reply, now)⟩ =>
    match noteOf fromStr reply with
    | some (content, version) => held.insert path ⟨content, version, now⟩
    | none => held
  | _ => held

/-- The cache of a client after the dialogue of a call that goes on, up to its `vault_write`. -/
def heard (fromStr : String → Except String Json) (c : VaultClient)
    (d : Dialogue Ask Ask.Answer) : Cache :=
  d.foldl (hear fromStr) c.cache

/-- What the client holds at each point of a call: a connection while it awaits a tool call, the cache it
heard while a `vault_write` may follow, and a copy with the version it offers while it writes. -/
def Phase.Equipped (held : Cache) : Phase → Prop
  | .reconnecting _ c => c.cache = held
  | .dialing why _ c => why ≠ .reread → c.cache = held
  | .fetching why _ conn c => c.Live conn ∧ (why ≠ .reread → c.cache = held)
  | .dialingWrite path _ expected c => c.cache = held ∧ ∃ k, held path = some k ∧ k.version = expected
  | .writing path _ expected conn c =>
    c.Live conn ∧ c.cache = held ∧ ∃ k, held path = some k ∧ k.version = expected
  | .done _ _ => True

namespace Phase

variable {fromStr : String → Except String Json} {held : Cache}

theorem equipped_fetch (why : Errand) (path : String) {c : VaultClient}
    (h : why ≠ .reread → c.cache = held) : (fetch why path c).Equipped held := by
  obtain ⟨_ | conn, cache, _ | _, reval⟩ := c
  · exact h
  · exact h
  · exact ⟨⟨rfl, rfl⟩, h⟩
  · exact h

theorem equipped_submit (path content : String) {c : VaultClient} (h : c.cache = held) :
    (submit path content c).Equipped held := by
  subst h
  unfold submit
  cases hk : c.cache path with
  | none => exact trivial
  | some k =>
    obtain ⟨_ | conn, cache, _ | _, reval⟩ := c
    · exact ⟨rfl, k, hk, rfl⟩
    · exact ⟨rfl, k, hk, rfl⟩
    · exact ⟨⟨rfl, rfl⟩, rfl, k, hk, rfl⟩
    · exact ⟨rfl, k, hk, rfl⟩

theorem equipped_readOffline (path : String) (e : KnowledgeError) (c : VaultClient) :
    (readOffline path e c).Equipped held := by
  rw [readOffline_eq]
  exact trivial

theorem equipped_writeFailed (e : KnowledgeError) (c : VaultClient) :
    (writeFailed e c).Equipped held := by
  rw [writeFailed_eq]
  exact trivial

theorem equipped_online (op : Op) (now : Instant) {c : VaultClient} (h : c.cache = held) :
    (online op now c).Equipped held := by
  have hcases := online_cases op now c
  generalize online op now c = φ at hcases ⊢
  cases hcases with
  | hit => exact trivial
  | read => exact equipped_fetch _ _ fun _ => h
  | revalidate => exact equipped_fetch _ _ fun _ => h
  | submit => exact equipped_submit _ _ h

theorem equipped_start (op : Op) (c : VaultClient) (now : Instant) :
    (start op c now).Equipped c.cache := by
  cases hoff : c.offline with
  | true =>
    simp only [start, hoff, if_true]
    exact rfl
  | false =>
    simp only [start, hoff, Bool.false_eq_true, if_false]
    exact equipped_online op now rfl

theorem equipped_fetchFailed (why : Errand) (e : KnowledgeError) (path : String)
    (c : VaultClient) : (fetchFailed why e path c).Equipped held := by
  cases why with
  | read => exact equipped_readOffline _ _ _
  | revalidate content => exact trivial
  | reread => exact equipped_writeFailed _ _

/-- A fetch that brought a note has added it to the cache, and only a revalidation goes on. -/
theorem equipped_fetched (why : Errand) (r : ReadResult) (path : String) {c : VaultClient}
    (h : why ≠ .reread → c.cache = held) : (fetched why r path c).Equipped held := by
  cases why with
  | read => exact trivial
  | revalidate content => exact equipped_submit _ _ (h nofun)
  | reread => exact trivial

/-- Every answer leaves the client equipped for what comes next. -/
theorem equipped_step {φ : Phase} {q : Ask} {next : q.Answer → Phase} (h : φ.Equipped held)
    (hv : view fromStr φ = .waiting q next) (a : q.Answer) :
    (next a).Equipped (hear fromStr held ⟨q, a⟩) := by
  cases φ with
  | reconnecting op c =>
    cases hv
    obtain ⟨e | conn, now⟩ := a
    · cases op with
      | read path => exact equipped_readOffline _ _ _
      | write path content => exact trivial
    · exact equipped_online _ _ h
  | dialing why path c =>
    cases hv
    obtain ⟨e | conn, now⟩ := a
    · exact equipped_fetchFailed _ _ _ _
    · exact ⟨live_connected c conn, h⟩
  | fetching why path conn c =>
    cases hv
    obtain ⟨reply, now⟩ := a
    show (readAnswered fromStr why path c now reply).Equipped _
    cases hnote : noteOf fromStr reply with
    | some note =>
      obtain ⟨content, version⟩ := note
      rw [readAnswered_note hnote]
      apply equipped_fetched
      intro hwhy
      simp only [hear, hnote, ← h.2 hwhy, learned]
    | none =>
      obtain ⟨e, heq⟩ := readAnswered_no_note why path c now hnote
      rw [heq]
      exact equipped_fetchFailed _ _ _ _
  | dialingWrite path content expected c =>
    cases hv
    obtain ⟨e | conn, now⟩ := a
    · exact equipped_writeFailed _ _
    · exact ⟨live_connected c conn, h⟩
  | writing path content expected conn c =>
    cases hv
    obtain ⟨reply, now⟩ := a
    show (writeAnswered fromStr path content c now reply).Equipped _
    rcases writeAnswered_cases fromStr path content expected c now reply 0 none with
      ⟨v, -, heq⟩ | ⟨text, -, -, -, heq⟩ | ⟨e, -, -, heq, -⟩
    · rw [heq]
      exact trivial
    · rw [heq]
      exact equipped_fetch _ _ (absurd rfl)
    · rw [heq]
      exact equipped_writeFailed _ _
  | done outcome c => cases hv

end Phase

/-! ## Conflicts -/

section Conflict

variable (fromStr : String → Except String Json)

/-- What follows a reported conflict: the note is read again over the same connection; a note is
returned as the conflict's and kept, and without one the dropped copy stays away. -/
def Rereads (conn : ConnId) (path : String)
    (p : Program Ask Ask.Answer (Outcome × VaultClient)) : Prop :=
  ∃ next, p = .ask (.callTool conn (.vaultRead path)) next ∧
    (∀ reply now content version, noteOf fromStr reply = some (content, version) →
      ∃ after : VaultClient,
        next (reply, now) = .ret (.write (.ok (.conflict ⟨path, content, version, false⟩)), after) ∧
        after.cache path = some ⟨content, version, now⟩) ∧
    ∀ reply now, noteOf fromStr reply = none → ∃ (e : KnowledgeError) (after : VaultClient),
      next (reply, now) = .ret (.write (.error e), after) ∧ after.cache path = none

/-- What follows any other refusal: an error of the protocol, and a cache that is still the one `held` at
the `vault_write`, with the copy whose version was offered. -/
def KeepsCopy (held : Cache) (path : String) (expected : Option String)
    (p : Program Ask Ask.Answer (Outcome × VaultClient)) : Prop :=
  ∃ (message : String) (after : VaultClient) (k : CacheEntry),
    p = .ret (.write (.error (.protocol message)), after) ∧ after.cache = held ∧
      held path = some k ∧ k.version = expected

/-- The refusal is handled as what it is. -/
structure Classified (held : Cache) (conn : ConnId) (path : String) (expected : Option String)
    (text : String) (p : Program Ask Ask.Answer (Outcome × VaultClient)) : Prop where
  conflict : ReportsConflict fromStr text → Rereads fromStr conn path p
  other : ¬ ReportsConflict fromStr text → KeepsCopy held path expected p

variable {fromStr}

/-- The re-read after a conflict is awaited without a copy, and its answer ends the write. -/
theorem rereads_of_follows {conn : ConnId} {path : String} {c : VaultClient}
    {p : Program Ask Ask.Answer (Outcome × VaultClient)}
    (h : Follows (Phase.view fromStr) (.fetching .reread path conn (Phase.discarded c path)) p) :
    Rereads fromStr conn path p := by
  obtain ⟨next, rfl, hnext⟩ := h.eq_ask rfl
  refine ⟨next, rfl, ?_, ?_⟩
  · intro reply now content version hnote
    have hend := hnext (reply, now)
    rw [Phase.readAnswered_note hnote] at hend
    exact ⟨_, hend.eq_ret rfl, Cache.insert_same _ _ _⟩
  · intro reply now hnote
    have hend := hnext (reply, now)
    obtain ⟨e, he⟩ := Phase.readAnswered_no_note .reread path (Phase.discarded c path) now hnote
    rw [he] at hend
    simp only [Phase.fetchFailed, Phase.writeFailed_eq] at hend
    exact ⟨_, _, hend.eq_ret rfl, Cache.remove_same _ _⟩

/-- A refusal that ends the write with a protocol error keeps the copy. -/
theorem keepsCopy_of_follows {path message : String} {expected : Option String} {c : VaultClient}
    {held : Cache} {k : CacheEntry} {p : Program Ask Ask.Answer (Outcome × VaultClient)}
    (h : Follows (Phase.view fromStr) (Phase.writeFailed (.protocol message) c) p)
    (hcache : c.cache = held) (hk : held path = some k) (hv : k.version = expected) :
    KeepsCopy held path expected p :=
  ⟨message, c.markOfflineOf, k, h.eq_ret rfl, hcache, hk, hv⟩

theorem Rereads.not_keepsCopy {conn : ConnId} {path : String} {expected : Option String}
    {held : Cache} {p : Program Ask Ask.Answer (Outcome × VaultClient)}
    (h : Rereads fromStr conn path p) : ¬ KeepsCopy held path expected p := by
  obtain ⟨next, rfl, -⟩ := h
  rintro ⟨message, after, k, hp, -⟩
  cases hp

/-- Where `vault_write` is answered, the refusal is handled as a conflict exactly when the body is JSON
that names or mentions one, and otherwise as an error of the protocol. -/
theorem Phase.writeRefused_cases (path content text : String) {c : VaultClient} {conn : ConnId}
    (now : Instant) (hlive : c.Live conn) :
    (∃ body, fromStr text = .ok body ∧ (NamesConflict fromStr text ∨ MentionsConflict text) ∧
      writeAnswered fromStr path content c now (.ok (text, true)) =
        .fetching .reread path conn (discarded c path)) ∨
    ∃ message, writeAnswered fromStr path content c now (.ok (text, true)) =
        writeFailed (.protocol message) c ∧
      ∀ body, fromStr text = .ok body → ¬ (NamesConflict fromStr text ∨ MentionsConflict text) := by
  cases hbody : fromStr text with
  | error e =>
    refine .inr ⟨e, ?_, nofun⟩
    simp only [writeAnswered, hbody]
  | ok body =>
    by_cases hc : isConflict text body = true
    · refine .inl ⟨body, rfl, (isConflict_iff hbody).mp hc, ?_⟩
      simp only [writeAnswered, hbody, hc, if_true]
      exact fetch_live _ _ (hlive.discarded path)
    · refine .inr ⟨"vault_write refused: " ++ text, ?_, ?_⟩
      · simp only [writeAnswered, hbody, if_true, if_neg hc]
      · intro _ _ h
        exact hc ((isConflict_iff hbody).mpr h)

/-- **Conflicts are told from other refusals exactly on these texts**: wherever in a call, begun with
any client, `vault_write` is answered with `isError`, the refusal is handled as what it is if and only
if a text that mentions a conflict is JSON whose error is one. -/
theorem refusals_classified_iff (op : Op) (c : VaultClient) (start : Instant)
    {d : Dialogue Ask Ask.Answer} {conn : ConnId} {path content : String}
    {expected : Option String}
    {next : Ask.Answer (.callTool conn (.vaultWrite path content expected)) →
      Program Ask Ask.Answer (Outcome × VaultClient)}
    (hr : (op.program fromStr c start).Reaches d
      (.ask (.callTool conn (.vaultWrite path content expected)) next))
    (text : String) (now : Instant) :
    Classified fromStr (heard fromStr c d) conn path expected text
        (next (.ok (text, true), now)) ↔
      (MentionsConflict text → NamesConflict fromStr text) := by
  have step : ∀ {d φ q next}, Phase.Equipped (heard fromStr c d) φ →
      Phase.view fromStr φ = .waiting q next → ∀ a,
        (next a).Equipped (heard fromStr c (d ++ [⟨q, a⟩])) := by
    intro d φ q next h hv a
    rw [heard, List.foldl_append]
    exact Phase.equipped_step h hv a
  obtain ⟨φ, hφ, heq⟩ := Follows.reaches (I := fun d φ => φ.Equipped (heard fromStr c d)) step hr
    (Phase.start_follows op c start) (Phase.equipped_start op c start)
  cases φ with
  | writing path' content' expected' conn' c' =>
    obtain ⟨next', hnext', hall⟩ := hφ.eq_ask rfl
    cases hnext'
    obtain ⟨hlive, hcache, k, hk, hv⟩ := heq
    have hend := hall (.ok (text, true), now)
    rcases Phase.writeRefused_cases path content text now hlive with
      ⟨body, hbody, hconflict, hw⟩ | ⟨message, hw, hno⟩
    · have hreread := rereads_of_follows (hw ▸ hend)
      have hreports := reportsConflict_of_ok hbody
      constructor
      · intro h _
        by_contra hnames
        exact hreread.not_keepsCopy (h.other (mt hreports.mp hnames))
      · intro h
        have hnames : NamesConflict fromStr text := hconflict.elim id h
        exact ⟨fun _ => hreread, fun hnot => absurd (hreports.mpr hnames) hnot⟩
    · have hkeeps := keepsCopy_of_follows (hw ▸ hend) hcache hk hv
      cases hbody : fromStr text with
      | ok body =>
        -- nothing names or mentions a conflict
        have hnot := hno body hbody
        constructor
        · intro _ hm
          exact absurd (.inr hm) hnot
        · intro _
          refine ⟨?_, fun _ => hkeeps⟩
          intro hreports
          exact absurd (.inl ((reportsConflict_of_ok hbody).mp hreports)) hnot
      | error e =>
        have hreports := reportsConflict_of_error hbody
        constructor
        · intro h hm
          exact absurd hkeeps (h.conflict (hreports.mpr hm)).not_keepsCopy
        · intro h
          refine ⟨?_, fun _ => hkeeps⟩
          intro hreports'
          exact absurd (h (hreports.mp hreports')) (not_namesConflict hbody)
  | reconnecting op' c' =>
    obtain ⟨next', hnext', -⟩ := hφ.eq_ask rfl
    cases hnext'
  | dialing why path' c' =>
    obtain ⟨next', hnext', -⟩ := hφ.eq_ask rfl
    cases hnext'
  | fetching why path' conn' c' =>
    obtain ⟨next', hnext', -⟩ := hφ.eq_ask rfl
    cases hnext'
  | dialingWrite path' content' expected' c' =>
    obtain ⟨next', hnext', -⟩ := hφ.eq_ask rfl
    cases hnext'
  | done outcome c' => cases hφ.eq_ret rfl

end Conflict

namespace Sample

/-- A client online with a copy of the note. -/
def reader : VaultClient :=
  { conn := some 0, cache := Cache.empty.insert path ⟨"first", "v1", 0⟩, offline := false,
    needsRevalidation := false }

/-- A conflict in plain text. -/
def plainConflict : String := "CONFLICT: note.md is at version 2, expectedVersion=1."

/-- A missing note whose path has the word in it. -/
def missingConflict : String := "\x7b\"error\":\"NOT_FOUND\",\"path\":\"CONFLICT.md\"\x7d"

/-- `serde_json::from_str` on the sample texts and on the missing note's. -/
def fromStrRefusals (text : String) : Except String Json :=
  if text = missingConflict then
    .ok (.object [("error", .string "NOT_FOUND"), ("path", .string "CONFLICT.md")])
  else fromStr text

end Sample

/-- A conflict reported in JSON is handled as one. -/
theorem refusals_classified_iff_sample :
    ∃ next, (Op.write Sample.path "third").program Sample.fromStr Sample.reader 0 =
        .ask (.callTool 0 (.vaultWrite Sample.path "third" (some "v1"))) next ∧
      Classified Sample.fromStr Sample.reader.cache 0 Sample.path (some "v1") Sample.refused.1
        (next (.ok Sample.refused, 5)) := by
  refine ⟨_, rfl, ?_⟩
  exact (refusals_classified_iff (.write Sample.path "third") Sample.reader 0 (.here _)
    Sample.refused.1 5).mpr fun _ => ⟨_, rfl, rfl⟩

/-- Two refusals of one write are handled as what they are not: a conflict in plain text, which ends in
an error of the protocol, and a missing note, whose copy is dropped for the word in its path. -/
theorem refusals_mistaken :
    ∃ next, (Op.write Sample.path "third").program Sample.fromStrRefusals Sample.reader 0 =
        .ask (.callTool 0 (.vaultWrite Sample.path "third" (some "v1"))) next ∧
      ¬ Classified Sample.fromStrRefusals Sample.reader.cache 0 Sample.path (some "v1")
        Sample.plainConflict
        (next (.ok (Sample.plainConflict, true), 5)) ∧
      ¬ Classified Sample.fromStrRefusals Sample.reader.cache 0 Sample.path (some "v1")
        Sample.missingConflict
        (next (.ok (Sample.missingConflict, true), 5)) := by
  refine ⟨_, rfl, ?_, ?_⟩
  · intro h
    obtain ⟨next, hp, -⟩ := h.conflict (by
      show MentionsConflict Sample.plainConflict
      unfold MentionsConflict
      decide)
    cases hp
  · intro h
    obtain ⟨message, after, k, hp, -⟩ := h.other (by
      show ¬ (some "NOT_FOUND" = some "CONFLICT")
      decide)
    cases hp

end GooseClaw
