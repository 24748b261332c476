import GooseClaw.Vault.Server

/-!
# What a write replaces

Human edits win when a write replaces only what the caller was last given. The copy a write offers its
token from is what the caller was last given (`Known`), with one exception: a revalidation read
refreshes the copy inside the write and gives the caller nothing. Where it finds what the caller had, all
is well (`run_replaces_given`); where it finds an edit, the write lands on top of it
(`not_run_replaces_given`).

A write to a note the caller was not shown ends in a conflict or in `MustReadFirst`, but only if whatever
it asks for on the way is brought (`AnswersUnshown`): without a connection it is muted, a conflict in
plain text is a protocol error, and so is a note that cannot be read again. That every write ends so is
not shown, nor that the server ever answers one.
-/

namespace GooseClaw

open Found VaultClient

section

variable {fromStr : String → Except String Json} {n : Nat} {before after : VaultClient}
  {J : List Entry} {last : Entry} {now : Instant} {op : Op} {outcome : Outcome}

/-! ## What a return gives the caller -/

/-- A content given is that of the standing confirmation. -/
theorem Ending.given_standing {path content : String}
    (h : Ending fromStr n before J last now op outcome after)
    (hcache : after.cache = cacheOf fromStr (J ++ [last]))
    (hg : (Entry.returned n op outcome after now).given path = some content) :
    ∃ k, cacheOf fromStr (J ++ [last]) path = some k ∧ k.content = content := by
  cases op with
  | read p =>
    cases outcome with
    | write r => cases hg
    | read r =>
      cases r with
      | error e => cases hg
      | ok r =>
        obtain ⟨p', k, hop, hk, rfl, -⟩ := h.of_read hcache
        cases hop
        simp only [Entry.given, Option.ite_none_right_eq_some, Option.some.injEq] at hg
        obtain ⟨rfl, hcontent⟩ := hg
        exact ⟨k, hk, hcontent⟩
  | write p x =>
    cases h with
    | written hk =>
      simp only [Entry.given, Option.ite_none_right_eq_some, Option.some.injEq] at hg
      obtain ⟨rfl, hcontent⟩ := hg
      rw [cacheOf_snoc, Entry.learn_of_confirms hk]
      exact ⟨_, Cache.insert_same _ _ _, hcontent⟩
    | conflict hk =>
      simp only [Entry.given, Option.ite_none_right_eq_some, Option.some.injEq] at hg
      obtain ⟨rfl, hcontent⟩ := hg
      rw [cacheOf_snoc, Entry.learn_of_confirms hk]
      exact ⟨_, Cache.insert_same _ _ _, hcontent⟩
    | _ => cases hg

/-- What the last entry of a call confirmed is given. -/
theorem Ending.given_of_confirms {path : String} {k : CacheEntry}
    (h : Ending fromStr n before J last now op outcome after)
    (hk : last.confirms fromStr = some (path, k)) :
    (Entry.returned n op outcome after now).given path = some k.content := by
  cases h with
  | hit hopen =>
    rw [hopen.confirms] at hk
    cases hk
  | mustRead hopen =>
    rw [hopen.confirms] at hk
    cases hk
  | refused => cases hk
  | fallback hdeny hc =>
    rw [hc] at hk
    cases hk
  | unrevalidated hc =>
    rw [hc] at hk
    cases hk
  | failed hc =>
    rw [hc] at hk
    cases hk
  | unreread hc =>
    rw [hc] at hk
    cases hk
  | fetched hk' =>
    cases hk'.symm.trans hk
    exact if_pos rfl
  | written hk' =>
    cases hk'.symm.trans hk
    exact if_pos rfl
  | conflict hk' =>
    cases hk'.symm.trans hk
    exact if_pos rfl

end

/-! ## The copy and the caller -/

section

variable (fromStr : String → Except String Json)

/-- The copy of a note, if there is one, holds what the caller was last given. -/
def Known (path : String) (J : List Entry) : Prop :=
  ∀ k, cacheOf fromStr J path = some k → lastGiven path J = some k.content

/-- A revalidation read finds what the caller was last given. -/
def Entry.findsGiven (J : List Entry) : Entry → Bool
  | .answered n rid (.vaultRead path) reply time =>
    match (Entry.answered n rid (.vaultRead path) reply time).confirms fromStr with
    | some (_, k) =>
      Revalidates n J (.vaultRead path) → lastGiven path J = some k.content
    | none => true
  | _ => true

/-- Every revalidation read finds what the caller was last given. -/
def RevalidatesKnown (J : List Entry) : Prop :=
  Every (fun J₁ e => e.findsGiven fromStr J₁ = true) J

instance (J : List Entry) : Decidable (RevalidatesKnown fromStr J) :=
  inferInstanceAs (Decidable (Every (fun J₁ e => e.findsGiven fromStr J₁ = true) J))

end

/-- The entry puts the request on the wire. -/
def Entry.sends (rid : Nat) : Entry → Bool
  | .sent _ rid' _ _ => rid' = rid
  | _ => false

/-- The journal before a request went on the wire. -/
def whenSent (rid : Nat) (J : List Entry) : List Entry := J.takeWhile fun e => !e.sends rid

/-- A write is applied while the caller was last given, for its note, what it was last given when the
write went on the wire. -/
def Entry.appliesGiven (J : List Entry) : Entry → Bool
  | .served rid (.vaultWrite path _ _) _ _ (some _) =>
    lastGiven path J = lastGiven path (whenSent rid J)
  | _ => true

/-- No write is applied after the caller was given another content for its note. -/
def AppliesKnown (J : List Entry) : Prop := Every (fun J₁ e => e.appliesGiven J₁ = true) J

instance (J : List Entry) : Decidable (AppliesKnown J) :=
  inferInstanceAs (Decidable (Every (fun J₁ e => e.appliesGiven J₁ = true) J))

/-! ## Writes to a note the caller was not shown -/

/-- The server takes up a `vault_write` of call `n` while the note is not what the caller was last
given. -/
def Entry.meetsUnshown (n : Nat) (J : List Entry) : Entry → Bool
  | .served rid (.vaultWrite path content expected) note _ _ =>
    (rid, ToolCall.vaultWrite path content expected) ∈ writesOf n J ∧
      lastGiven path J ≠ some (contentOf note)
  | _ => false

/-- Call `n` writes a note the caller was not shown: at a point `J₁` of the call the caller was never given
the note, or its `vault_write` is taken up, at any time, while the note is not what the caller was last
given. -/
def Unshown (n : Nat) (path : String) (J₁ J : List Entry) : Prop :=
  lastGiven path J₁ = none ∨ ∃ A e B, J = A ++ e :: B ∧ e.meetsUnshown n A = true

section

variable (fromStr : String → Except String Json)

/-- The entry brings a call what it asked for: a connection, a note, the version of what was written, or
the report of a conflict. -/
def Entry.brings : Entry → Bool
  | .connected _ (.ok _) => true
  | .connected _ (.error _) => false
  | .answered n rid call reply time =>
    ((Entry.answered n rid call reply time).confirms fromStr).isSome ∨
      ((Entry.answered n rid call reply time).discards fromStr).isSome
  | _ => true

/-- Whatever a write to a note the caller was not shown asks for, it is brought. -/
def AnswersUnshown (J : List Entry) : Prop :=
  ∀ J₁ e J₂ n path content before, J = J₁ ++ e :: J₂ → e.callNo? = some n →
    .called n (.write path content) before ∈ J → Unshown n path J₁ J → e.brings fromStr = true

variable {fromStr}

/-- An answer that neither confirms nor takes away brings nothing. -/
theorem Entry.not_brings {n : Nat} {rid : Option Nat} {call : ToolCall} {reply : ToolReply}
    {time : Instant} (hc : (Entry.answered n rid call reply time).confirms fromStr = none)
    (hd : (Entry.answered n rid call reply time).discards fromStr = none) :
    (Entry.answered n rid call reply time).brings fromStr ≠ true := by
  simp only [Entry.brings, hc, hd, Option.isSome_none, Bool.false_eq_true, or_self, decide_false,
    ne_eq, not_false_eq_true]

theorem lastGiven_append (path : String) (J J' : List Entry) :
    lastGiven path (J ++ J') = (lastGiven path J').or (lastGiven path J) := by
  unfold lastGiven
  rw [List.filterMap_append, List.getLast?_append]

/-- What was never given was not given before. -/
theorem lastGiven_eq_none {path : String} {J J' : List Entry}
    (h : lastGiven path (J ++ J') = none) : lastGiven path J = none := by
  rw [lastGiven_append, Option.or_eq_none_iff] at h
  exact h.2

theorem Unshown.of_append {n : Nat} {path : String} {J J₁ J₂ : List Entry}
    (h : Unshown n path (J₁ ++ J₂) J) : Unshown n path J₁ J :=
  h.imp_left lastGiven_eq_none

end

section

variable {fromStr : String → Except String Json} {J : List Entry} {path : String}

/-- An entry that gives nothing, and spares the path or takes its copy away. -/
theorem Known.snoc {e : Entry} (h : Known fromStr path J) (hg : e.given path = none)
    (hc : ∀ k, e.confirms fromStr = some (path, k) → lastGiven path J = some k.content) :
    Known fromStr path (J ++ [e]) := by
  intro k hk
  rw [lastGiven_snoc, hg, Option.none_or]
  rw [cacheOf_snoc] at hk
  rcases e.learn_at path (cacheOf fromStr J) with ⟨k', hk', hl⟩ | ⟨-, -, hl⟩ | ⟨-, hl⟩
  · cases hl.symm.trans hk
    exact hc k hk'
  · cases hl.symm.trans hk
  · exact h k (hl.symm.trans hk)

/-- A return keeps the copy and the caller together. -/
theorem Known.returned {n : Nat} {before after : VaultClient} {last : Entry} {now : Instant}
    {op : Op} {outcome : Outcome} (hending : Ending fromStr n before J last now op outcome after)
    (hcache : after.cache = cacheOf fromStr (J ++ [last]))
    (h : (Entry.returned n op outcome after now).given path = none →
      Known fromStr path (J ++ [last])) :
    Known fromStr path (J ++ [last] ++ [.returned n op outcome after now]) := by
  intro k hk
  rw [cacheOf_quiet rfl rfl] at hk
  rw [lastGiven_snoc]
  cases hg : (Entry.returned n op outcome after now).given path with
  | some content =>
    obtain ⟨k', hk', rfl⟩ := hending.given_standing hcache hg
    cases hk'.symm.trans hk
    rfl
  | none => exact h hg k hk

/-- The last entry of a call leaves to its return what it confirmed. -/
theorem Known.last {n : Nat} {before after : VaultClient} {last : Entry} {now : Instant}
    {op : Op} {outcome : Outcome} (h : Known fromStr path J)
    (hending : Ending fromStr n before J last now op outcome after)
    (hg : (Entry.returned n op outcome after now).given path = none) :
    Known fromStr path (J ++ [last]) := by
  refine h.snoc (hending.last_quiet n path).2 ?_
  intro k hk
  rw [hending.given_of_confirms hk] at hg
  cases hg

/-- An entry that confirms a note and does not end its call is a revalidation, and finds what the caller
was last given. -/
theorem lastGiven_of_findsGiven {e : Entry} {k : CacheEntry}
    (hk : e.confirms fromStr = some (path, k)) (hclose : ¬ e.Closes fromStr J)
    (hfinds : e.findsGiven fromStr J = true) : lastGiven path J = some k.content := by
  cases e with
  | answered n rid call reply time =>
    have hrev : Revalidates n J call := by
      by_contra hnot
      exact hclose ⟨Entry.discards_of_confirms hk, fun h => absurd h hnot⟩
    cases call with
    | vaultWrite path content expected => cases hrev.1
    | vaultRead path' =>
      obtain ⟨rfl, -⟩ := Entry.of_confirms_read hk
      simp only [Entry.findsGiven, hk] at hfinds
      exact of_decide_eq_true hfinds hrev
  | _ => cases hk

/-- **The copy is what the caller was last given**, between the steps of every journal whose
revalidations found it so. At an entry that ends its call this held just before. -/
theorem known_of_laws (laws : Every (Law fromStr) J) (hrev : RevalidatesKnown fromStr J)
    (path : String) :
    (Settled fromStr J ∧ Known fromStr path J) ∨
      ∃ J₀ last, J = J₀ ++ [last] ∧ last.Closes fromStr J₀ ∧ Known fromStr path J₀ := by
  induction J using List.reverseRecOn with
  | nil => exact .inl ⟨settled_nil, nofun⟩
  | append_singleton J e ih =>
    obtain ⟨hlaws, hsettled, hrule⟩ := every_snoc.mp laws
    obtain ⟨hrevs, hrev'⟩ := every_snoc.mp hrev
    rcases ih hlaws hrevs with ⟨hset, hknown⟩ | ⟨J₀, last, rfl, hclose, hknown⟩
    · by_cases hclose : e.Closes fromStr J
      · exact .inr ⟨J, e, rfl, hclose, hknown⟩
      · refine .inl ⟨settled_snoc.mpr hclose, ?_⟩
        cases e with
        | returned n op outcome after time =>
          obtain ⟨J₀, last, before, rfl, -, hcache, hending⟩ := hrule
          exact Known.returned hending hcache fun _ => hknown
        | _ =>
          apply hknown.snoc rfl
          intro k hk
          exact lastGiven_of_findsGiven hk hclose hrev'
    · -- the call was ended by its last entry, so this is its return
      rcases hsettled with hset | ⟨n, op, outcome, after, time, rfl⟩
      · exact absurd hclose (settled_snoc.mp hset)
      · obtain ⟨J₀', last', before, heq, -, hcache, hending⟩ := hrule
        obtain ⟨rfl, hlast⟩ := List.append_inj' heq rfl
        cases hlast
        exact .inl ⟨settled_snoc.mpr id, Known.returned hending hcache (hknown.last hending)⟩

/-- Before the only sending of a request, the journal is cut right there. -/
theorem whenSent_eq {n rid : Nat} {conn : ConnId} {call : ToolCall} {J₁ J₂ : List Entry}
    (h : ∀ m conn' call', Entry.sent m rid conn' call' ∉ J₁) :
    whenSent rid (J₁ ++ .sent n rid conn call :: J₂) = J₁ := by
  have hnot : ∀ e ∈ J₁, (!e.sends rid) = true := by
    intro e he
    cases e with
    | sent m rid' conn' call' =>
      have hne : rid' ≠ rid := by
        rintro rfl
        exact h m conn' call' he
      simp only [Entry.sends, hne, decide_false, Bool.not_false]
    | _ => rfl
  unfold whenSent
  rw [List.takeWhile_append_of_pos hnot]
  simp only [List.takeWhile_cons, Entry.sends, decide_true, Bool.not_true, Bool.false_eq_true,
    if_false, List.append_nil]

/-! ## Against a server that keeps its promises -/

variable {token : String → Option String → String}

/-- The version of a copy stands for its content. -/
theorem Lawful.copy_token (h : Lawful fromStr J) (genuine : Genuine J)
    (shows : ShowsNotes fromStr J) (names : NamesWritten fromStr J) (tokens : KeepsTokens token J)
    {J₁ J₂ : List Entry} {k : CacheEntry} (hs : J = J₁ ++ J₂)
    (hk : Standing fromStr J₁ path k) : k.content = token path k.version := by
  obtain ⟨J₀, e, later, rfl, hc, -⟩ := hk
  have hs' : J = J₀ ++ e :: (later ++ J₂) := by rw [hs, List.append_assoc, List.cons_append]
  cases e with
  | answered n rid call reply time =>
    cases call with
    | vaultRead path' =>
      obtain ⟨rfl, text, body, rfl, hbody, rfl⟩ := Entry.of_confirms_read hc
      obtain ⟨rid, rfl⟩ := (h.rule hs').2 _ rfl
      obtain ⟨note, wrote, hserved⟩ := genuine.served hs'
      obtain ⟨hcontent, hversion⟩ := shows.shown (mem_of_eq_append hs' hserved) hbody
      show (body.getStr "content").getD "" = token path (body.getStr "expectedVersion")
      rw [hcontent, hversion]
      exact tokens.note_eq (mem_of_eq_append hs' hserved)
    | vaultWrite path' content expected =>
      obtain ⟨rfl, text, body, version, rfl, hbody, hv, rfl⟩ := Entry.of_confirms_write hc
      obtain ⟨rid, rfl⟩ := (h.rule hs').2 _ rfl
      obtain ⟨note, wrote, hserved⟩ := genuine.served hs'
      obtain rfl := names.wrote_eq (mem_of_eq_append hs' hserved) hbody hv
      exact tokens.written_eq (mem_of_eq_append hs' hserved)
  | _ => cases hc

end

/-- Human edits win: what a write replaces is what the caller was last given. -/
structure ReplacesGiven (J : List Entry) : Prop where
  /-- Whenever a write is applied, the caller was last given the content it replaces. -/
  replaced : ∀ J₁ rid path content expected note reply version J₂,
    J = J₁ ++ .served rid (.vaultWrite path content expected) note reply (some version) :: J₂ →
      lastGiven path J₁ = some (contentOf note)
  /-- A write to a note the caller was never given is not even sent. -/
  offered : ∀ J₁ n rid conn path content expected J₂,
    J = J₁ ++ .sent n rid conn (.vaultWrite path content expected) :: J₂ →
      ∃ given, lastGiven path J₁ = some given
  /-- A write returned as written was applied. -/
  written : ∀ n op version after time,
    .returned n op (.write (.ok (.written version))) after time ∈ J → Applied n J
  /-- A write to a note the caller was not shown ends in a conflict or in `MustReadFirst`. -/
  ended : ∀ J₁ n path content outcome after time J₂,
    J = J₁ ++ .returned n (.write path content) outcome after time :: J₂ → Unshown n path J₁ J →
      (∃ fresh, outcome = .write (.ok (.conflict fresh))) ∨
        outcome = .write (.error (.mustReadFirst path))

section

variable {fromStr : String → Except String Json} {J : List Entry}
  {token : String → Option String → String}

/-- When a write is sent, the copy it offers is what the caller was last given. -/
theorem Lawful.offered_known (h : Lawful fromStr J) (hrev : RevalidatesKnown fromStr J)
    {J₁ J₂ : List Entry} {n rid : Nat} {conn : ConnId} {path content : String}
    {expected : Option String}
    (hs : J = J₁ ++ .sent n rid conn (.vaultWrite path content expected) :: J₂) :
    ∃ k, Standing fromStr J₁ path k ∧ k.version = expected ∧
      lastGiven path J₁ = some k.content := by
  obtain ⟨-, -, hwrite⟩ := h.rule hs
  obtain ⟨-, -, k, hk, hversion⟩ := hwrite path content expected rfl
  have hset : Settled fromStr J₁ := by
    rcases (h.laws _ _ _ hs).1 with hset | ⟨_, _, _, _, _, heq⟩
    · exact hset
    · cases heq
  have laws : Every (Law fromStr) J₁ := Every.of_append (hs ▸ h.laws)
  rcases known_of_laws laws (Every.of_append (hs ▸ hrev)) path with ⟨-, hknown⟩ | ⟨J₀, last, rfl, hclose, -⟩
  · exact ⟨k, cacheOf_eq_some.mp hk, hversion, hknown k hk⟩
  · exact absurd hclose (settled_snoc.mp hset)

/-- A write over the compare-and-set replaces what the caller was last given. -/
theorem Lawful.replaced_given (h : Lawful fromStr J) (genuine : Genuine J) (cas : CompareAndSet J)
    (shows : ShowsNotes fromStr J) (names : NamesWritten fromStr J) (tokens : KeepsTokens token J)
    (hrev : RevalidatesKnown fromStr J) (happlies : AppliesKnown J) {J₁ J₂ : List Entry} {rid : Nat}
    {path content version : String} {expected : Option String} {note : Option Note}
    {reply : ToolReply}
    (hs : J = J₁ ++ .served rid (.vaultWrite path content expected) note reply (some version) :: J₂) :
    lastGiven path J₁ = some (contentOf note) := by
  have hserved := mem_of_eq_append_cons hs
  obtain ⟨⟨n, conn, hsent⟩, -⟩ := h.rule hs
  obtain ⟨A, B, rfl⟩ := List.append_of_mem hsent
  have hsent' : J = A ++ .sent n rid conn (.vaultWrite path content expected) ::
      (B ++ .served rid (.vaultWrite path content expected) note reply (some version) :: J₂) := by
    rw [hs, List.append_assoc, List.cons_append]
  obtain ⟨k, hk, hversion, hgiven⟩ := h.offered_known hrev hsent'
  -- nothing else was given since the write was sent
  have hsame := of_decide_eq_true (happlies _ _ _ hs)
  rw [whenSent_eq (h.rule hsent').2.1, hgiven] at hsame
  rw [hsame]
  -- and the token stands for what the write replaces
  have hcontent : k.content = contentOf note := by
    calc k.content
        = token path k.version := h.copy_token genuine shows names tokens hsent' hk
      _ = token path (versionOf note) := by rw [hversion, cas.current hserved]
      _ = contentOf note := (tokens.note_eq hserved).symm
  rw [hcontent]

/-- A write confirmed with a version was applied. -/
theorem Lawful.served_of_written (h : Lawful fromStr J) (genuine : Genuine J)
    (names : NamesWritten fromStr J) {J₁ J₂ : List Entry} {n : Nat} {request : Option Nat}
    {path content version : String} {expected : Option String} {reply : ToolReply}
    {now time : Instant}
    (hs : J = J₁ ++ .answered n request (.vaultWrite path content expected) reply now :: J₂)
    (hk : (Entry.answered n request (.vaultWrite path content expected) reply now).confirms fromStr =
      some (path, ⟨content, some version, time⟩)) :
    ∃ rid note, request = some rid ∧
      .served rid (.vaultWrite path content expected) note reply (some version) ∈ J := by
  obtain ⟨-, text, body, version', rfl, hbody, hv, hk'⟩ := Entry.of_confirms_write hk
  cases hk'
  obtain ⟨rid, rfl⟩ := (h.rule hs).2 _ rfl
  obtain ⟨note, wrote, hserved⟩ := genuine.served hs
  have hserved' := mem_of_eq_append hs hserved
  obtain rfl := names.wrote_eq hserved' hbody hv
  exact ⟨rid, note, rfl, hserved'⟩

/-- A write that was accepted was shown the note: it was given when the write was sent, and what was
replaced is what was given. -/
theorem Lawful.not_unshown (h : Lawful fromStr J) (hrev : RevalidatesKnown fromStr J)
    (hreplaced : ∀ J₁ rid path content expected note reply version J₂,
      J = J₁ ++ .served rid (.vaultWrite path content expected) note reply (some version) :: J₂ →
        lastGiven path J₁ = some (contentOf note))
    {J₁ J₂ : List Entry} {n rid : Nat} {path content version : String} {expected : Option String}
    {note : Option Note} {reply : ToolReply} (hj : J = J₁ ++ J₂)
    (hwrites : writesOf n J₁ = [(rid, .vaultWrite path content expected)])
    (hall : writesOf n J = writesOf n J₁)
    (hserved : .served rid (.vaultWrite path content expected) note reply (some version) ∈ J) :
    ¬ Unshown n path J₁ J := by
  rintro (hnone | ⟨A, e, B, hs, hmeets⟩)
  · -- never given, it would not have been sent
    obtain ⟨-, conn, hsent⟩ := mem_writesOf.mp (hwrites ▸ List.mem_singleton_self _)
    obtain ⟨A, B, rfl⟩ := List.append_of_mem hsent
    rw [List.append_assoc] at hj
    obtain ⟨k, -, -, hgiven⟩ := h.offered_known hrev hj
    rw [lastGiven_eq_none hnone] at hgiven
    cases hgiven
  · cases e with
    | served rid' call note' reply' wrote =>
      cases call with
      | vaultRead path' => cases hmeets
      | vaultWrite path' content' expected' =>
        obtain ⟨hmem, hother⟩ := of_decide_eq_true hmeets
        have hmem' : (rid', ToolCall.vaultWrite path' content' expected') ∈ writesOf n J := by
          rw [hs, writesOf_append]
          exact List.mem_append_left _ hmem
        rw [hall, hwrites] at hmem'
        cases List.mem_singleton.mp hmem'
        cases h.served_unique hserved (mem_of_eq_append_cons hs)
        exact hother (hreplaced _ _ _ _ _ _ _ _ _ hs)
    | _ => cases hmeets

/-- **Human edits win**, in every journal whose revalidations find what the caller was given, whose
writes are applied before the caller is given something else, and whose writes to a note the caller was
not shown are brought what they ask for. -/
theorem Lawful.replacesGiven (h : Lawful fromStr J) (genuine : Genuine J) (cas : CompareAndSet J)
    (shows : ShowsNotes fromStr J) (names : NamesWritten fromStr J) (tokens : KeepsTokens token J)
    (hrev : RevalidatesKnown fromStr J) (happlies : AppliesKnown J)
    (hanswers : AnswersUnshown fromStr J) : ReplacesGiven J where
  replaced _ _ _ _ _ _ _ _ _ hs :=
    h.replaced_given genuine cas shows names tokens hrev happlies hs
  offered := by
    intro J₁ n rid conn path content expected J₂ hs
    obtain ⟨k, -, -, hgiven⟩ := h.offered_known hrev hs
    exact ⟨k.content, hgiven⟩
  written := by
    intro n op version after time hret
    obtain ⟨J₁, J₂, hs⟩ := List.append_of_mem hret
    obtain ⟨J₀, last, before, rfl, -, -, hending⟩ := h.ending hs
    have hended : writesOf n J = writesOf n J₀ := h.writesOf_ended hs hending
    cases hending with
    | written hk hwrites =>
      obtain ⟨rid, note, rfl, hserved⟩ := h.served_of_written genuine names (eq_append_cons hs) hk
      refine ⟨rid, _, note, _, version, ?_, hserved⟩
      rw [hended, hwrites]
      exact List.mem_singleton_self _
  ended := by
    intro J₁ n path content outcome after time J₂ hs hunshown
    obtain ⟨J₀, last, before, rfl, hcalled, -, hending⟩ := h.ending hs
    have hended : writesOf n J = writesOf n J₀ := h.writesOf_ended hs hending
    have hs' := eq_append_cons hs
    have hunshown' : Unshown n path J₀ J := hunshown.of_append
    have hbrings : last.brings fromStr = true :=
      hanswers J₀ last _ n path content before hs' hending.callNo? (mem_of_eq_append hs hcalled)
        hunshown'
    cases hending with
    | mustRead => exact .inr rfl
    | conflict => exact .inl ⟨_, rfl⟩
    | refused => cases hbrings
    | unrevalidated hc => exact absurd hbrings (Entry.not_brings hc rfl)
    | failed hc hwrites hwire hiff hdown hd => exact absurd hbrings (Entry.not_brings hc hd)
    | unreread hc => exact absurd hbrings (Entry.not_brings hc rfl)
    | written hk hwrites =>
      obtain ⟨rid, note, rfl, hserved⟩ := h.served_of_written genuine names hs' hk
      refine absurd hunshown' (h.not_unshown hrev ?_ hs' hwrites hended hserved)
      intro A rid path content expected note reply version B hs
      exact h.replaced_given genuine cas shows names tokens hrev happlies hs

end

namespace Sample

/-- What the sample versions stand for. -/
def token (_ : String) (version : Option String) : String :=
  if version = some "v1" then "first" else if version = some "v2" then "second"
  else if version = some "v3" then "third" else ""

/-- The human edits the note between the read and the write, which meets a conflict; the next write is
accepted. -/
def metEdit : List Event :=
  firstRead ++ humanEdit :: .call (.write path "third") :: exchange 1 refused none ++
    exchange 2 (shown "second" "v2") none ++
    .call (.write path "third") :: exchange 3 (accepted "v3") (some "v3")

/-- The human edits the note during an outage, and the first call after it is a write. -/
def blindWrite : List Event :=
  firstRead ++ lostRead ++ humanEdit :: .call (.write path "third") :: .connected (.ok 1) ::
    exchange 1 (shown "second" "v2") none ++ exchange 2 (accepted "v3") (some "v3")

end Sample

namespace Federation

variable {fromStr : String → Except String Json} {vault : String → Option Note} {tr : List Event}
  {s : Federation (Program Ask Ask.Answer (Outcome × VaultClient))}

/-- **Human edits win.** Against a server that keeps its promises, in every run whose revalidation reads
find what the caller was last given, whose writes are applied before the caller is given something else
for their note, and whose writes to a note the caller was not shown are brought what they ask for: a
write replaces only what the caller was last given, and a write to a note the caller was not shown ends
in a conflict or in `MustReadFirst`. -/
theorem run_replaces_given (token : String → Option String → String)
    (h : (machine fromStr).run (init vault) tr = some s)
    (genuine : Genuine s.world.journal) (cas : CompareAndSet s.world.journal)
    (shows : ShowsNotes fromStr s.world.journal) (names : NamesWritten fromStr s.world.journal)
    (tokens : KeepsTokens token s.world.journal)
    (hrev : RevalidatesKnown fromStr s.world.journal) (happlies : AppliesKnown s.world.journal)
    (hanswers : AnswersUnshown fromStr s.world.journal) :
    ReplacesGiven s.world.journal :=
  (run_lawful h).replacesGiven genuine cas shows names tokens hrev happlies hanswers

/-- The write that meets the edit ends in a conflict, and the next one replaces what the conflict
gave. -/
theorem run_replaces_given_sample :
    ∃ s, (machine Sample.fromStr).run (init Sample.vault) Sample.metEdit = some s ∧
      (∃ J₁ after J₂, s.world.journal = J₁ ++ .returned 2 (.write Sample.path "third")
        (.write (.ok (.conflict ⟨Sample.path, "second", some "v2", false⟩))) after 0 :: J₂ ∧
        Unshown 2 Sample.path J₁ s.world.journal) ∧
      Applied 3 s.world.journal ∧ ReplacesGiven s.world.journal := by
  obtain ⟨s, J₁, after, J₂, hrun, hs, hret, hmet, happlied⟩ :
      ∃ s J₁ after J₂, (machine Sample.fromStr).run (init Sample.vault) Sample.metEdit = some s ∧
        s.world.journal = Sample.journal Sample.metEdit ∧
        s.world.journal = J₁ ++ .returned 2 (.write Sample.path "third")
          (.write (.ok (.conflict ⟨Sample.path, "second", some "v2", false⟩))) after 0 :: J₂ ∧
        (∃ A e B, s.world.journal = A ++ e :: B ∧ e.meetsUnshown 2 A = true) ∧
        Applied 3 s.world.journal :=
    ⟨_, [_, _, _, _, _, _, _, _, _, _, _, _, _, _], _, [_, _, _, _, _], rfl, rfl, rfl,
      ⟨[_, _, _, _, _, _, _, _, _], _, _, rfl, by decide⟩,
      3, .vaultWrite Sample.path "third" (some "v2"), some ⟨"second", "v2"⟩,
      .ok (Sample.accepted "v3"), "v3", by decide, List.mem_of_getElem? (i := 17) rfl⟩
  have hbrings : ∀ e ∈ Sample.journal Sample.metEdit, e.brings Sample.fromStr = true := by decide
  have hanswers : AnswersUnshown Sample.fromStr s.world.journal := by
    intro J₁ e J₂ n path content before hj _ _ _
    exact hbrings e (hs ▸ mem_of_eq_append_cons hj)
  refine ⟨s, hrun, ⟨J₁, after, J₂, hret, .inr hmet⟩, happlied,
    run_replaces_given Sample.token hrun ?_ ?_ ?_ ?_ ?_ ?_ ?_ hanswers⟩ <;>
    rw [hs] <;> decide

/-- They do not win in every run: a write that revalidates replaces an edit the caller was never
shown. -/
theorem not_run_replaces_given :
    ¬ ∀ (fromStr : String → Except String Json) token vault tr s,
      (machine fromStr).run (init vault) tr = some s → Genuine s.world.journal →
      CompareAndSet s.world.journal → ErrsUnwritten s.world.journal →
      ShowsNotes fromStr s.world.journal → NamesWritten fromStr s.world.journal →
      KeepsTokens token s.world.journal →
      ∀ J₁ rid path content expected note reply version J₂,
        s.world.journal = J₁ ++
          .served rid (.vaultWrite path content expected) note reply (some version) :: J₂ →
        lastGiven path J₁ = some (contentOf note) := by
  intro hall
  obtain ⟨s, J₁, J₂, hrun, hs, hsplit, hgiven⟩ :
      ∃ s J₁ J₂, (machine Sample.fromStr).run (init Sample.vault) Sample.blindWrite = some s ∧
        s.world.journal = Sample.journal Sample.blindWrite ∧
        s.world.journal = J₁ ++ .served 2 (.vaultWrite Sample.path "third" (some "v2"))
          (some ⟨"second", "v2"⟩) (.ok (Sample.accepted "v3")) (some "v3") :: J₂ ∧
        lastGiven Sample.path J₁ = some "first" :=
    ⟨_, [_, _, _, _, _, _, _, _, _, _, _, _, _, _, _, _], [_, _], rfl, rfl, rfl, rfl⟩
  have hclaim := hall Sample.fromStr Sample.token _ _ s hrun (by rw [hs]; decide)
    (by rw [hs]; decide) (by rw [hs]; decide) (by rw [hs]; decide) (by rw [hs]; decide)
    (by rw [hs]; decide) J₁ _ _ _ _ _ _ _ J₂ hsplit
  rw [hgiven] at hclaim
  exact absurd hclaim (by decide)

end Federation

end GooseClaw
