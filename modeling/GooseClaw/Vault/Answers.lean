import GooseClaw.Vault.Journal

/-!
# Answers to tool calls

A client between two answers is live, down, or was never connected; and an answer to a tool call does
one of a few things, whatever its text: it confirms a note, reports a conflict, or fails. The case
lemmas `readAnswered_cases` and `writeAnswered_cases` say so once, and relate the error the client makes
of a failure to the failure itself; `online_cases` says what an online call goes on to.
-/

namespace GooseClaw

open Found VaultClient

/-! ## Clients -/

namespace VaultClient

/-- The client holds the connection and believes it is online. -/
def Live (c : VaultClient) (conn : ConnId) : Prop := c.conn = some conn ∧ c.offline = false

/-- The client is offline and its connection dropped. -/
def Down (c : VaultClient) : Prop := c.offline = true ∧ c.conn = none

/-- A client that never connected has nothing to revalidate. -/
def WellFormed (c : VaultClient) : Prop :=
  c.offline = false → c.conn = none → c.cache = Cache.empty ∧ c.needsRevalidation = false

theorem Live.wellFormed {c : VaultClient} {conn : ConnId} (h : c.Live conn) : c.WellFormed := by
  intro _ hconn
  rw [h.1] at hconn
  cases hconn

theorem Down.wellFormed {c : VaultClient} (h : c.Down) : c.WellFormed := by
  intro hoff
  rw [h.1] at hoff
  cases hoff

theorem down_markOffline (c : VaultClient) : c.markOfflineOf.Down := ⟨rfl, rfl⟩

theorem live_connected (c : VaultClient) (conn : ConnId) : (c.connected conn).Live conn :=
  ⟨rfl, rfl⟩

theorem Live.learned {c : VaultClient} {conn : ConnId} (h : c.Live conn) (p : String)
    (k : CacheEntry) : (Phase.learned c p k).Live conn := h

theorem Live.discarded {c : VaultClient} {conn : ConnId} (h : c.Live conn) (p : String) :
    (Phase.discarded c p).Live conn := h

end VaultClient

/-- What `write` makes of the error of `try_write`. -/
def KnowledgeError.mute : KnowledgeError → KnowledgeError
  | .transport _ => .muted
  | e => e

/-- The errors a tool call can end in. -/
def KnowledgeError.IsWire (e : KnowledgeError) : Prop :=
  (∃ m, e = .transport m) ∨ ∃ m, e = .protocol m

/-- The reply is a transport-level failure. -/
def ToolReply.IsFailure (reply : ToolReply) : Prop := ∃ m, reply = .error m ∧ m.isTransport = true

theorem isWire_connErr (m : McpError) : (connErr m).IsWire := by
  cases m with
  | transport m => exact .inl ⟨m, rfl⟩
  | timeout => exact .inl ⟨_, rfl⟩
  | _ => exact .inr ⟨_, rfl⟩

theorem connErr_transport_iff (m : McpError) :
    (∃ t, connErr m = .transport t) ↔ ToolReply.IsFailure (.error m) := by
  constructor
  · rintro ⟨t, h⟩
    cases m with
    | transport m => exact ⟨_, rfl, rfl⟩
    | timeout => exact ⟨_, rfl, rfl⟩
    | _ => cases h
  · rintro ⟨m', hm, ht⟩
    cases hm
    cases m with
    | transport m => exact ⟨m, rfl⟩
    | timeout => exact ⟨_, rfl⟩
    | _ => cases ht

theorem not_isFailure_ok (r : String × Bool) : ¬ ToolReply.IsFailure (.ok r) := by
  rintro ⟨m, h, -⟩
  cases h

theorem protocol_transport_iff {text : String} {r : String × Bool} :
    (∃ t, KnowledgeError.protocol text = .transport t) ↔ ToolReply.IsFailure (.ok r) := by
  constructor
  · rintro ⟨t, h⟩
    cases h
  · intro h
    exact absurd h (not_isFailure_ok r)

/-! ## Answers to tool calls -/

namespace Phase

variable (fromStr : String → Except String Json)

/-- An answered `vault_read` confirmed a note, or failed and confirmed nothing. -/
theorem readAnswered_cases (why : Errand) (path : String) (c : VaultClient) (now : Instant)
    (reply : ToolReply) (n : Nat) (rid : Option Nat) :
    (∃ k, (Entry.answered n rid (.vaultRead path) reply now).confirms fromStr = some (path, k) ∧
      k.fetchedAt = now ∧ readAnswered fromStr why path c now reply =
        fetched why ⟨path, k.content, k.version, false⟩ path (learned c path k)) ∨
    (∃ e, (Entry.answered n rid (.vaultRead path) reply now).confirms fromStr = none ∧
      readAnswered fromStr why path c now reply = fetchFailed why e path c ∧ e.IsWire ∧
      ((∃ t, e = .transport t) ↔ reply.IsFailure)) := by
  rcases reply with m | ⟨text, _ | _⟩
  · exact .inr ⟨_, rfl, rfl, isWire_connErr m, connErr_transport_iff m⟩
  · cases hbody : fromStr text with
    | error e =>
      refine .inr ⟨.protocol e, ?_, ?_, .inr ⟨_, rfl⟩, protocol_transport_iff⟩
      · simp only [Entry.confirms, hbody]
      · simp only [readAnswered, hbody]
    | ok body =>
      refine .inl ⟨⟨(body.getStr "content").getD "", body.getStr "expectedVersion", now⟩, ?_, rfl, ?_⟩
      · simp only [Entry.confirms, hbody]
      · simp only [readAnswered, hbody]
  · exact .inr ⟨_, rfl, rfl, .inr ⟨_, rfl⟩, protocol_transport_iff⟩

/-- An answered `vault_write` was accepted with a version, or refused with a conflict, or failed. -/
theorem writeAnswered_cases (path content : String) (ev : Option String) (c : VaultClient)
    (now : Instant) (reply : ToolReply) (n : Nat) (rid : Option Nat) :
    (∃ v, (Entry.answered n rid (.vaultWrite path content ev) reply now).confirms fromStr =
        some (path, ⟨content, some v, now⟩) ∧
      writeAnswered fromStr path content c now reply =
        .done (.write (.ok (.written v))) (learned c path ⟨content, some v, now⟩)) ∨
    (∃ text, reply = .ok (text, true) ∧
      (Entry.answered n rid (.vaultWrite path content ev) reply now).confirms fromStr = none ∧
      (Entry.answered n rid (.vaultWrite path content ev) reply now).discards fromStr =
        some path ∧
      writeAnswered fromStr path content c now reply = fetch .reread path (discarded c path)) ∨
    (∃ e, (Entry.answered n rid (.vaultWrite path content ev) reply now).confirms fromStr = none ∧
      (Entry.answered n rid (.vaultWrite path content ev) reply now).discards fromStr = none ∧
      writeAnswered fromStr path content c now reply = writeFailed e c ∧ e.IsWire ∧
      ((∃ t, e = .transport t) ↔ reply.IsFailure)) := by
  rcases reply with m | ⟨text, isError⟩
  · exact .inr (.inr ⟨_, rfl, rfl, rfl, isWire_connErr m, connErr_transport_iff m⟩)
  · cases hbody : fromStr text with
    | error e =>
      refine .inr (.inr ⟨.protocol e, ?_, ?_, ?_, .inr ⟨_, rfl⟩, protocol_transport_iff⟩)
      · cases isError <;> simp only [Entry.confirms, hbody]
      · cases isError <;> simp only [Entry.discards, hbody]
      · simp only [writeAnswered, hbody]
    | ok body =>
      cases isError with
      | true =>
        cases hconflict : isConflict text body with
        | true =>
          refine .inr (.inl ⟨text, rfl, rfl, ?_, ?_⟩)
          · simp only [Entry.discards, hbody, hconflict, if_true]
          · simp only [writeAnswered, hbody, hconflict, if_true]
        | false =>
          refine .inr (.inr ⟨.protocol ("vault_write refused: " ++ text), rfl, ?_, ?_,
            .inr ⟨_, rfl⟩, protocol_transport_iff⟩)
          · simp only [Entry.discards, hbody, hconflict, Bool.false_eq_true, if_false]
          · simp only [writeAnswered, hbody, hconflict, Bool.false_eq_true, if_true, if_false]
      | false =>
        cases hversion : body.getStr "version" with
        | none =>
          refine .inr (.inr ⟨.protocol "write ok but no version returned", ?_, rfl, ?_,
            .inr ⟨_, rfl⟩, protocol_transport_iff⟩)
          · simp only [Entry.confirms, hbody, hversion, Option.map_none]
          · simp only [writeAnswered, hbody, hversion, Bool.false_eq_true, if_false]
        | some v =>
          refine .inl ⟨v, ?_, ?_⟩
          · simp only [Entry.confirms, hbody, hversion, Option.map_some]
          · simp only [writeAnswered, hbody, hversion, Bool.false_eq_true, if_false]

theorem writeFailed_eq (e : KnowledgeError) (c : VaultClient) :
    writeFailed e c = .done (.write (.error e.mute)) c.markOfflineOf := by
  cases e <;> rfl

theorem readOffline_eq (path : String) (e : KnowledgeError) (c : VaultClient) :
    readOffline path e c = .done (.read ((c.cachedStale path).elim (.error e) .ok)) c := by
  unfold readOffline
  cases c.cachedStale path <;> rfl

theorem fetch_live (why : Errand) (path : String) {c : VaultClient} {conn : ConnId}
    (h : c.Live conn) : fetch why path c = .fetching why path conn c := by
  simp only [fetch, h.1, h.2]

theorem send_live (path content : String) (ev : Option String) {c : VaultClient} {conn : ConnId}
    (h : c.Live conn) : send path content ev c = .writing path content ev conn c := by
  simp only [send, h.1, h.2]

/-- What an online call goes on to. -/
inductive Onlines (now : Instant) (c : VaultClient) : Op → Phase → Prop
  | hit {path : String} {e : CacheEntry} :
      (c.cache path).filter (CacheEntry.fresh now) = some e →
      Onlines now c (.read path) (.done (.read (.ok ⟨path, e.content, e.version, false⟩)) c)
  | read {path : String} :
      (c.cache path).filter (CacheEntry.fresh now) = none →
      Onlines now c (.read path) (fetch .read path c)
  | revalidate {path content : String} :
      c.needsRevalidation = true →
      Onlines now c (.write path content) (fetch (.revalidate content) path c)
  | submit {path content : String} :
      c.needsRevalidation = false →
      Onlines now c (.write path content) (submit path content c)

/-- **The inversion of an online call.** -/
theorem online_cases (op : Op) (now : Instant) (c : VaultClient) :
    Onlines now c op (online op now c) := by
  cases op with
  | read path =>
    cases hfresh : (c.cache path).filter (CacheEntry.fresh now) with
    | some e =>
      simp only [online, hfresh]
      exact .hit hfresh
    | none =>
      simp only [online, hfresh]
      exact .read hfresh
  | write path content =>
    cases hreval : c.needsRevalidation with
    | true =>
      simp only [online, hreval, if_true]
      exact .revalidate hreval
    | false =>
      simp only [online, hreval, Bool.false_eq_true, if_false]
      exact .submit hreval

end Phase

end GooseClaw
