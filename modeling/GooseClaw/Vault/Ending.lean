import GooseClaw.Vault.Answers

/-!
# How a call ends

`Ending` lists the ways a call on the client can end, one constructor for each, with what the journal
shows of it and what client it leaves; the last entry before the call returned decides which. `Place`
is what a call that still waits remembers of the journal. `Onward` says that an automaton that was
just started or answered did one of the two, and the lemmas here prove it for every start and every
answer. Every law about returned results reads `Ending` and looks no further into the client.
-/

namespace GooseClaw

open Found VaultClient

/-! ## Entries that open and close calls -/

namespace Entry

/-- The entry lets a call go to work online: the call began, or its reconnect brought a
connection. -/
def Opens (n : Nat) (e : Entry) : Prop :=
  (∃ op before, e = .called n op before) ∨ ∃ conn, e = .connected n (.ok conn)

/-- The entry may deny a read its live copy: no connection came up, or the fetch was answered. -/
def Denies (n : Nat) (path : String) (e : Entry) : Prop :=
  (∃ err, e = .connected n (.error err)) ∨
    ∃ rid reply time, e = .answered n rid (.vaultRead path) reply time

variable (fromStr : String → Except String Json)

/-- The entry ends its call: no connection came up, or a tool call was answered and neither reported a
conflict nor confirmed a revalidation. -/
def Closes (J : List Entry) : Entry → Prop
  | .connected _ (.error _) => True
  | .answered n rid call reply time =>
    (Entry.answered n rid call reply time).discards fromStr = none ∧
      (Revalidates n J call → (Entry.answered n rid call reply time).confirms fromStr = none)
  | _ => False

variable {fromStr}

theorem Opens.not_fails {n m : Nat} {e : Entry} (h : e.Opens n) : ¬ e.Fails m := by
  rcases h with ⟨op, before, rfl⟩ | ⟨conn, rfl⟩ <;> exact id

theorem Opens.not_closes {n : Nat} {e : Entry} (h : e.Opens n) (J : List Entry) :
    ¬ e.Closes fromStr J := by
  rcases h with ⟨op, before, rfl⟩ | ⟨conn, rfl⟩ <;> exact id

theorem Opens.confirms {n : Nat} {e : Entry} (h : e.Opens n) : e.confirms fromStr = none := by
  rcases h with ⟨op, before, rfl⟩ | ⟨conn, rfl⟩ <;> rfl

theorem Opens.discards {n : Nat} {e : Entry} (h : e.Opens n) : e.discards fromStr = none := by
  rcases h with ⟨op, before, rfl⟩ | ⟨conn, rfl⟩ <;> rfl

theorem Opens.writeOf {n : Nat} {e : Entry} (h : e.Opens n) (m : Nat) : e.writeOf m = none := by
  rcases h with ⟨op, before, rfl⟩ | ⟨conn, rfl⟩ <;> rfl

/-- A failure ends its call. -/
theorem Fails.closes {n : Nat} {e : Entry} (h : e.Fails n) (J : List Entry) :
    e.Closes fromStr J := by
  cases e with
  | connected m answer =>
    cases answer with
    | ok conn => exact h.elim
    | error e => exact trivial
  | answered m rid call reply time =>
    cases reply with
    | ok r => exact h.elim
    | error e =>
      constructor
      · cases call <;> rfl
      · intro _
        cases call <;> rfl
  | _ => exact h.elim

end Entry

/-- The request of an awaited call, once it is on the wire. -/
def onWire (request : Option Nat) (call : ToolCall) : List (Nat × ToolCall) :=
  (request.map fun rid => (rid, call)).toList

/-! ## Endings and places -/

section

variable (fromStr : String → Except String Json) (n : Nat) (before : VaultClient) (J : List Entry)

/-- How call `n`, begun with the client `before`, ended after the journal `J` and one last entry: the
time, the call, its outcome, and the client it left. -/
inductive Ending : Entry → Instant → Op → Outcome → VaultClient → Prop
  /-- A read found a fresh copy. -/
  | hit {last : Entry} {now : Instant} {path : String} {k : CacheEntry} {after : VaultClient} :
      last.Opens n → cacheOf fromStr J path = some k → k.fresh now = true →
      after.offline = false →
      Ending last now (.read path) (.read (.ok ⟨path, k.content, k.version, false⟩)) after
  /-- A read fetched the note. -/
  | fetched {rid : Option Nat} {reply : ToolReply} {now : Instant} {path : String}
      {k : CacheEntry} {after : VaultClient} :
      (Entry.answered n rid (.vaultRead path) reply now).confirms fromStr = some (path, k) →
      k.fetchedAt = now → after.offline = false →
      Ending (.answered n rid (.vaultRead path) reply now) now (.read path)
        (.read (.ok ⟨path, k.content, k.version, false⟩)) after
  /-- A read fell back on its copy, if it had one. -/
  | fallback {last : Entry} {now : Instant} {path : String} {e : KnowledgeError}
      {after : VaultClient} :
      last.Denies n path → last.confirms fromStr = none → after.Down →
      Ending last now (.read path) (.read ((after.cachedStale path).elim (.error e) .ok)) after
  /-- A write found no connection. -/
  | refused {e : ConnectError} {now : Instant} {path content : String} {after : VaultClient} :
      writesOf n J = [] → after.cache = before.cache → after.Down →
      Ending (.connected n (.error e)) now (.write path content) (.write (.error .muted)) after
  /-- A write had no copy to take a version from. -/
  | mustRead {last : Entry} {now : Instant} {path content : String} {after : VaultClient} :
      last.Opens n → writesOf n J = [] → after.cache = before.cache →
      Ending last now (.write path content) (.write (.error (.mustReadFirst path))) after
  /-- A write's revalidation failed; the client stays as it was. -/
  | unrevalidated {rid : Option Nat} {reply : ToolReply} {now : Instant}
      {path content : String} {e : KnowledgeError} {after : VaultClient} :
      (Entry.answered n rid (.vaultRead path) reply now).confirms fromStr = none →
      writesOf n J = [] → e.IsWire → ((∃ t, e = .transport t) ↔ reply.IsFailure) →
      after.offline = false →
      Ending (.answered n rid (.vaultRead path) reply now) now (.write path content)
        (.write (.error e)) after
  /-- A write was accepted with a version. -/
  | written {rid : Option Nat} {reply : ToolReply} {now : Instant} {path content version : String}
      {expected : Option String} {after : VaultClient} :
      (Entry.answered n rid (.vaultWrite path content expected) reply now).confirms fromStr =
        some (path, ⟨content, some version, now⟩) →
      writesOf n J = onWire rid (.vaultWrite path content expected) →
      Ending (.answered n rid (.vaultWrite path content expected) reply now) now
        (.write path content) (.write (.ok (.written version))) after
  /-- A write was not accepted, and not for a conflict. -/
  | failed {rid : Option Nat} {reply : ToolReply} {now : Instant} {path content : String}
      {expected : Option String} {e : KnowledgeError} {after : VaultClient} :
      (Entry.answered n rid (.vaultWrite path content expected) reply now).confirms fromStr =
        none →
      writesOf n J = onWire rid (.vaultWrite path content expected) →
      e.IsWire → ((∃ t, e = .transport t) ↔ reply.IsFailure) → after.Down →
      (Entry.answered n rid (.vaultWrite path content expected) reply now).discards fromStr =
        none →
      Ending (.answered n rid (.vaultWrite path content expected) reply now) now
        (.write path content) (.write (.error e.mute)) after
  /-- A write met a conflict, and the note was read again. -/
  | conflict {rid : Option Nat} {reply : ToolReply} {now time : Instant}
      {path content text : String} {expected : Option String} {wid : Nat} {k : CacheEntry}
      {after : VaultClient} :
      (Entry.answered n rid (.vaultRead path) reply now).confirms fromStr = some (path, k) →
      writesOf n J = [(wid, .vaultWrite path content expected)] →
      .answered n (some wid) (.vaultWrite path content expected) (.ok (text, true)) time ∈ J →
      Ending (.answered n rid (.vaultRead path) reply now) now (.write path content)
        (.write (.ok (.conflict ⟨path, k.content, k.version, false⟩))) after
  /-- A write met a conflict, and the note could not be read again. -/
  | unreread {rid : Option Nat} {reply : ToolReply} {now time : Instant}
      {path content text : String} {expected : Option String} {wid : Nat} {e : KnowledgeError}
      {after : VaultClient} :
      (Entry.answered n rid (.vaultRead path) reply now).confirms fromStr = none →
      writesOf n J = [(wid, .vaultWrite path content expected)] →
      .answered n (some wid) (.vaultWrite path content expected) (.ok (text, true)) time ∈ J →
      e.IsWire → ((∃ t, e = .transport t) ↔ reply.IsFailure) → after.Down →
      Ending (.answered n rid (.vaultRead path) reply now) now (.write path content)
        (.write (.error e.mute)) after

/-- Where a call may wait, with what the journal shows of it and the number of its awaited request. -/
inductive Place : Op → Option Nat → Phase → Prop
  | reconnecting {op : Op} {c : VaultClient} :
      c.cache = before.cache → writesOf n J = [] → Place op none (.reconnecting op c)
  | dialing {path : String} {c : VaultClient} : Place (.read path) none (.dialing .read path c)
  | reading {path : String} {conn : ConnId} {c : VaultClient} {request : Option Nat} :
      c.Live conn → Place (.read path) request (.fetching .read path conn c)
  | revalidating {path content : String} {conn : ConnId} {c : VaultClient}
      {request : Option Nat} :
      c.Live conn → writesOf n J = [] →
      Place (.write path content) request (.fetching (.revalidate content) path conn c)
  | rereading {path content text : String} {expected : Option String} {wid : Nat}
      {time : Instant} {conn : ConnId} {c : VaultClient} {request : Option Nat} :
      c.Live conn → writesOf n J = [(wid, .vaultWrite path content expected)] →
      .answered n (some wid) (.vaultWrite path content expected) (.ok (text, true)) time ∈ J →
      Place (.write path content) request (.fetching .reread path conn c)
  | writing {path content : String} {k : CacheEntry} {conn : ConnId} {c : VaultClient}
      {request : Option Nat} :
      c.Live conn → c.cache path = some k →
      writesOf n J = onWire request (.vaultWrite path content k.version) →
      Place (.write path content) request (.writing path content k.version conn c)

/-- The call ended, or waits at a place, and its client holds the standing confirmations. -/
def Onward (last : Entry) (now : Instant) (op : Op) (φ : Phase) : Prop :=
  φ.client.cache = cacheOf fromStr (J ++ [last]) ∧
    ((∃ outcome after, φ = .done outcome after ∧ after.WellFormed ∧
        Ending fromStr n before J last now op outcome after) ∨
      ¬ last.Closes fromStr J ∧ Place n before (J ++ [last]) op none φ)

end

/-! ## Places last -/

section

variable {n : Nat} {before : VaultClient} {J : List Entry} {op : Op} {request : Option Nat}
  {φ : Phase}

/-- An entry that puts no write of the call on the wire leaves the call at its place. -/
theorem Place.snoc {e : Entry} (h : Place n before J op request φ) (he : e.writeOf n = none) :
    Place n before (J ++ [e]) op request φ := by
  have hw : writesOf n (J ++ [e]) = writesOf n J := by
    rw [writesOf_snoc, he]
    exact List.append_nil _
  cases h with
  | reconnecting hc hn => exact .reconnecting hc (hw.trans hn)
  | dialing => exact .dialing
  | reading hl => exact .reading hl
  | revalidating hl hn => exact .revalidating hl (hw.trans hn)
  | rereading hl hn hm => exact .rereading hl (hw.trans hn) (List.mem_append_left _ hm)
  | writing hl hk hn => exact .writing hl hk (hw.trans hn)

/-- The awaited request went on the wire. -/
theorem Place.send {fromStr : String → Except String Json} {conn : ConnId} {call : ToolCall}
    {next : Ask.Answer (.callTool conn call) → Phase} {rid : Nat}
    (h : Place n before J op none φ)
    (hv : Phase.view fromStr φ = .waiting (.callTool conn call) next) :
    Place n before (J ++ [.sent n rid conn call]) op (some rid) φ := by
  have hread : ∀ {path}, call = .vaultRead path →
      writesOf n (J ++ [.sent n rid conn call]) = writesOf n J := by
    rintro path rfl
    simp [Entry.writeOf, ToolCall.isWrite]
  cases h with
  | reconnecting => cases hv
  | dialing => cases hv
  | reading hl => exact .reading hl
  | revalidating hl hn =>
    cases hv
    exact .revalidating hl ((hread rfl).trans hn)
  | rereading hl hn hm =>
    cases hv
    exact .rereading hl ((hread rfl).trans hn) (List.mem_append_left _ hm)
  | writing hl hk hn =>
    cases hv
    refine .writing hl hk ?_
    rw [writesOf_snoc, hn]
    simp [onWire, Entry.writeOf, ToolCall.isWrite]

/-- A call at a place is not done. -/
theorem Place.waits {fromStr : String → Except String Json} (h : Place n before J op request φ) :
    ∃ q next, Phase.view fromStr φ = .waiting q next := by
  cases h <;> exact ⟨_, _, rfl⟩

end

/-! ## Every start and every answer leads onward -/

section

variable {fromStr : String → Except String Json} {n : Nat} {before : VaultClient}
  {J : List Entry} {last : Entry} {now : Instant} {op : Op} {c : VaultClient}

/-- An entry that confirms nothing and takes nothing away leaves the standing confirmations. -/
theorem cacheOf_quiet (hc : last.confirms fromStr = none) (hd : last.discards fromStr = none) :
    cacheOf fromStr (J ++ [last]) = cacheOf fromStr J := by
  rw [cacheOf_snoc, Entry.learn_of_neither hc hd]

/-- A client online that has ever connected is live. -/
theorem WellFormed.live (hw : c.WellFormed) (hon : c.offline = false)
    (h : c.cache ≠ Cache.empty ∨ c.needsRevalidation = true) : ∃ conn, c.Live conn := by
  cases hconn : c.conn with
  | some conn => exact ⟨conn, hconn, hon⟩
  | none =>
    obtain ⟨hcache, hreval⟩ := hw hon hconn
    rcases h with h | h
    · exact absurd hcache h
    · rw [hreval] at h
      cases h

/-- A note is only held while the client has a connection or is offline. -/
theorem WellFormed.live_of_held (hw : c.WellFormed) (hon : c.offline = false) {path : String}
    {k : CacheEntry} (hk : c.cache path = some k) : ∃ conn, c.Live conn := by
  refine WellFormed.live hw hon (.inl ?_)
  intro hempty
  rw [hempty] at hk
  cases hk

/-- A read falls back on its copy. -/
theorem onward_readOffline {path : String} (e : KnowledgeError) (hn : last.Denies n path)
    (hc : last.confirms fromStr = none) (hd : last.discards fromStr = none)
    (hcache : c.cache = cacheOf fromStr J) (hdown : c.Down) :
    Onward fromStr n before J last now (.read path) (Phase.readOffline path e c) := by
  rw [Phase.readOffline_eq]
  refine ⟨?_, .inl ⟨_, c, rfl, hdown.wellFormed, .fallback hn hc hdown⟩⟩
  rw [cacheOf_quiet hc hd]
  exact hcache

/-- A write offers the version of its copy. -/
theorem onward_submit {path content : String} {conn : ConnId} {k : CacheEntry}
    (hclose : ¬ last.Closes fromStr J) (hlive : c.Live conn) (hk : c.cache path = some k)
    (hcache : c.cache = cacheOf fromStr (J ++ [last]))
    (hnone : writesOf n (J ++ [last]) = []) :
    Onward fromStr n before J last now (.write path content) (Phase.submit path content c) := by
  have hsubmit : Phase.submit path content c = .writing path content k.version conn c := by
    simp only [Phase.submit, hk, Phase.send_live _ _ _ hlive]
  rw [hsubmit]
  exact ⟨hcache, .inr ⟨hclose, .writing hlive hk hnone⟩⟩

/-- A call goes to work online. -/
theorem onward_online (hopen : last.Opens n) (hon : c.offline = false) (hw : c.WellFormed)
    (hbefore : c.cache = before.cache) (hcache : c.cache = cacheOf fromStr J)
    (hnone : writesOf n J = []) :
    Onward fromStr n before J last now op (Phase.online op now c) := by
  have hclose : ¬ last.Closes fromStr J := hopen.not_closes J
  have hcache' : c.cache = cacheOf fromStr (J ++ [last]) := by
    rw [cacheOf_quiet hopen.confirms hopen.discards, hcache]
  have hnone' : writesOf n (J ++ [last]) = [] := by
    rw [writesOf_snoc, hopen.writeOf, hnone]
    rfl
  have hcases := Phase.online_cases op now c
  generalize Phase.online op now c = φ at hcases ⊢
  cases hcases with
  | hit hfresh =>
    obtain ⟨hk, hk'⟩ := Option.filter_eq_some_iff.mp hfresh
    exact ⟨hcache', .inl ⟨_, c, rfl, hw, .hit hopen (hcache ▸ hk) hk' hon⟩⟩
  | read hfresh =>
    cases hconn : c.conn with
    | some conn =>
      rw [Phase.fetch_live _ _ ⟨hconn, hon⟩]
      exact ⟨hcache', .inr ⟨hclose, .reading ⟨hconn, hon⟩⟩⟩
    | none =>
      simp only [Phase.fetch, hon, hconn]
      exact ⟨hcache', .inr ⟨hclose, .dialing⟩⟩
  | revalidate hreval =>
    obtain ⟨conn, hlive⟩ := WellFormed.live hw hon (.inr hreval)
    rw [Phase.fetch_live _ _ hlive]
    exact ⟨hcache', .inr ⟨hclose, .revalidating hlive hnone'⟩⟩
  | @submit path content hreval =>
    cases hk : c.cache path with
    | none =>
      simp only [Phase.submit, hk]
      exact ⟨hcache', .inl ⟨_, c, rfl, hw, .mustRead hopen hnone hbefore⟩⟩
    | some k =>
      obtain ⟨conn, hlive⟩ := WellFormed.live_of_held hw hon hk
      exact onward_submit hclose hlive hk hcache' hnone'

/-- A call begins. -/
theorem onward_start (hw : c.WellFormed) (hcache : c.cache = cacheOf fromStr J)
    (hnone : writesOf n J = []) :
    Onward fromStr n c J (.called n op c) now op (Phase.start op c now) := by
  have hopen : (Entry.called n op c).Opens n := .inl ⟨op, c, rfl⟩
  unfold Phase.start
  cases hoff : c.offline with
  | false => exact onward_online hopen hoff hw rfl hcache hnone
  | true =>
    refine ⟨?_, .inr ⟨id, .reconnecting rfl ?_⟩⟩
    · rw [cacheOf_quiet rfl rfl]
      exact hcache
    · rw [writesOf_snoc, hnone]
      rfl

/-- The reconnect was answered. -/
theorem onward_reconnected (answer : Except ConnectError ConnId)
    (hbefore : c.cache = before.cache) (hcache : c.cache = cacheOf fromStr J)
    (hnone : writesOf n J = []) :
    Onward fromStr n before J (.connected n answer) now op (Phase.reconnected op c now answer) := by
  cases answer with
  | ok conn =>
    exact onward_online (.inr ⟨conn, rfl⟩) rfl (live_connected c conn).wellFormed hbefore hcache
      hnone
  | error e =>
    cases op with
    | read path =>
      exact onward_readOffline .offline (.inl ⟨e, rfl⟩) rfl rfl hcache (down_markOffline c)
    | write path content =>
      have hdown := down_markOffline c
      refine ⟨?_, .inl ⟨_, _, rfl, hdown.wellFormed, .refused hnone hbefore hdown⟩⟩
      rw [cacheOf_quiet rfl rfl]
      exact hcache

/-- A first connection was answered. -/
theorem onward_dialed {path : String} (answer : Except ConnectError ConnId)
    {next : Ask.Answer .connect → Phase}
    (hv : Phase.view fromStr (.dialing .read path c) = .waiting .connect next)
    (hcache : c.cache = cacheOf fromStr J) :
    Onward fromStr n before J (.connected n answer) now (.read path) (next (answer, now)) := by
  cases hv
  cases answer with
  | ok conn =>
    refine ⟨?_, .inr ⟨id, .reading (live_connected c conn)⟩⟩
    rw [cacheOf_quiet rfl rfl]
    exact hcache
  | error e => exact onward_readOffline _ (.inl ⟨e, rfl⟩) rfl rfl hcache (down_markOffline c)

/-- An answer that confirmed a note taught it to the client. -/
theorem cache_learned {path : String} {k : CacheEntry}
    (hc : last.confirms fromStr = some (path, k)) (hcache : c.cache = cacheOf fromStr J) :
    (Phase.learned c path k).cache = cacheOf fromStr (J ++ [last]) := by
  rw [cacheOf_snoc, Entry.learn_of_confirms hc, ← hcache]
  rfl

variable {reply : ToolReply} {request : Option Nat} {path content : String} {conn : ConnId}

/-- A read was answered. -/
theorem onward_readAnswered (hlive : c.Live conn) (hcache : c.cache = cacheOf fromStr J) :
    Onward fromStr n before J (.answered n request (.vaultRead path) reply now) now (.read path)
      (Phase.readAnswered fromStr .read path c now reply) := by
  rcases Phase.readAnswered_cases fromStr .read path c now reply n request with
    ⟨k, hk, htime, heq⟩ | ⟨e, hnone, heq, -, -⟩
  · rw [heq]
    exact ⟨cache_learned hk hcache, .inl ⟨_, _, rfl, (hlive.learned path k).wellFormed,
      .fetched hk htime hlive.2⟩⟩
  · rw [heq]
    exact onward_readOffline e (.inr ⟨_, _, _, rfl⟩) hnone rfl hcache (down_markOffline c)

/-- A revalidation was answered. -/
theorem onward_revalidated (hlive : c.Live conn) (hcache : c.cache = cacheOf fromStr J)
    (hcalled : ∃ before', Entry.called n (.write path content) before' ∈ J)
    (hnone : writesOf n J = []) :
    Onward fromStr n before J (.answered n request (.vaultRead path) reply now) now
      (.write path content)
      (Phase.readAnswered fromStr (.revalidate content) path c now reply) := by
  have hnone' : ∀ e : Entry, e.writeOf n = none → writesOf n (J ++ [e]) = [] := by
    intro e he
    rw [writesOf_snoc, he, hnone]
    rfl
  rcases Phase.readAnswered_cases fromStr (.revalidate content) path c now reply n request with
    ⟨k, hk, -, heq⟩ | ⟨e, hfail, heq, hwire, hiff⟩
  · rw [heq]
    have hclose : ¬ (Entry.answered n request (.vaultRead path) reply now).Closes fromStr J := by
      rintro ⟨-, h⟩
      obtain ⟨before', hb⟩ := hcalled
      have hfails := h ⟨rfl, ⟨path, content, before', hb⟩, hnone⟩
      rw [hk] at hfails
      cases hfails
    exact onward_submit (c := { Phase.learned c path k with needsRevalidation := false }) hclose
      (hlive.learned path k) (Cache.insert_same _ _ _) (cache_learned hk hcache) (hnone' _ rfl)
  · rw [heq]
    refine ⟨?_, .inl ⟨_, c, rfl, hlive.wellFormed, .unrevalidated hfail hnone hwire hiff hlive.2⟩⟩
    rw [cacheOf_quiet hfail rfl]
    exact hcache

/-- The re-read after a conflict was answered. -/
theorem onward_reread {expected : Option String} {wid : Nat} {text : String} {time : Instant}
    (hlive : c.Live conn) (hcache : c.cache = cacheOf fromStr J)
    (hwrites : writesOf n J = [(wid, .vaultWrite path content expected)])
    (hrefused : .answered n (some wid) (.vaultWrite path content expected) (.ok (text, true)) time
      ∈ J) :
    Onward fromStr n before J (.answered n request (.vaultRead path) reply now) now
      (.write path content) (Phase.readAnswered fromStr .reread path c now reply) := by
  rcases Phase.readAnswered_cases fromStr .reread path c now reply n request with
    ⟨k, hk, -, heq⟩ | ⟨e, hfail, heq, hwire, hiff⟩
  · rw [heq]
    exact ⟨cache_learned hk hcache, .inl ⟨_, _, rfl, (hlive.learned path k).wellFormed,
      .conflict hk hwrites hrefused⟩⟩
  · have hdown := down_markOffline c
    rw [heq]
    simp only [Phase.fetchFailed, Phase.writeFailed_eq]
    refine ⟨?_, .inl ⟨_, _, rfl, hdown.wellFormed,
      .unreread hfail hwrites hrefused hwire hiff hdown⟩⟩
    rw [cacheOf_quiet hfail rfl]
    exact hcache

/-- A write was answered. -/
theorem onward_writeAnswered {expected : Option String}
    (hlive : c.Live conn) (hcache : c.cache = cacheOf fromStr J)
    (hwrites : writesOf n J = onWire request (.vaultWrite path content expected))
    (harrive : ∀ r, reply = .ok r → ∃ wid, request = some wid) :
    Onward fromStr n before J
      (.answered n request (.vaultWrite path content expected) reply now) now
      (.write path content) (Phase.writeAnswered fromStr path content c now reply) := by
  rcases Phase.writeAnswered_cases fromStr path content expected c now reply n request with
    ⟨v, hk, heq⟩ | ⟨text, rfl, hc, hd, heq⟩ | ⟨e, hc, hd, heq, hwire, hiff⟩
  · rw [heq]
    exact ⟨cache_learned hk hcache, .inl ⟨_, _, rfl, (hlive.learned path _).wellFormed,
      .written hk hwrites⟩⟩
  · -- a conflict: the call goes on with the re-read
    obtain ⟨wid, rfl⟩ := harrive _ rfl
    rw [heq, Phase.fetch_live _ _ (hlive.discarded path)]
    have hwrites' : writesOf n (J ++ [.answered n (some wid) (.vaultWrite path content expected)
        (.ok (text, true)) now]) = [(wid, .vaultWrite path content expected)] := by
      rw [writesOf_snoc, hwrites]
      rfl
    have hclose : ¬ (Entry.answered n (some wid) (.vaultWrite path content expected)
        (.ok (text, true)) now).Closes fromStr J := by
      intro h
      have hkeeps := h.1
      rw [hd] at hkeeps
      cases hkeeps
    refine ⟨?_, .inr ⟨hclose, .rereading (hlive.discarded path) hwrites'
      (List.mem_append_right _ (List.mem_singleton_self _))⟩⟩
    rw [cacheOf_snoc, Entry.learn_of_discards hc hd, ← hcache]
    rfl
  · have hdown := down_markOffline c
    rw [heq, Phase.writeFailed_eq]
    refine ⟨?_, .inl ⟨_, _, rfl, hdown.wellFormed, .failed hc hwrites hwire hiff hdown hd⟩⟩
    rw [cacheOf_quiet hc hd]
    exact hcache

end

/-! ## Reading an ending by its outcome -/

section

variable {fromStr : String → Except String Json} {n : Nat} {before after : VaultClient}
  {J : List Entry} {last : Entry} {now : Instant} {op : Op}

/-- The last entry of a call is its beginning or an answer it got. -/
theorem Ending.last_cases {outcome : Outcome}
    (h : Ending fromStr n before J last now op outcome after) :
    (∃ op before, last = .called n op before) ∨ (∃ answer, last = .connected n answer) ∨
      ∃ rid call reply time, last = .answered n rid call reply time := by
  have hopens : last.Opens n → (∃ op before, last = .called n op before) ∨
      (∃ answer, last = .connected n answer) ∨
        ∃ rid call reply time, last = .answered n rid call reply time := by
    rintro (hcalled | ⟨conn, hconn⟩)
    · exact .inl hcalled
    · exact .inr (.inl ⟨_, hconn⟩)
  cases h with
  | hit hopen => exact hopens hopen
  | mustRead hopen => exact hopens hopen
  | fallback hdeny =>
    rcases hdeny with ⟨err, rfl⟩ | ⟨rid, reply, time, rfl⟩
    · exact .inr (.inl ⟨_, rfl⟩)
    · exact .inr (.inr ⟨_, _, _, _, rfl⟩)
  | refused => exact .inr (.inl ⟨_, rfl⟩)
  | _ => exact .inr (.inr ⟨_, _, _, _, rfl⟩)

theorem Ending.callNo? {outcome : Outcome}
    (h : Ending fromStr n before J last now op outcome after) : last.callNo? = some n := by
  rcases h.last_cases with ⟨_, _, rfl⟩ | ⟨_, rfl⟩ | ⟨_, _, _, _, rfl⟩ <;> rfl

/-- The last entry of a call puts nothing on the wire and gives the caller nothing. -/
theorem Ending.last_quiet {outcome : Outcome}
    (h : Ending fromStr n before J last now op outcome after) (m : Nat) (path : String) :
    last.writeOf m = none ∧ last.given path = none := by
  rcases h.last_cases with ⟨_, _, rfl⟩ | ⟨_, rfl⟩ | ⟨_, _, _, _, rfl⟩ <;> exact ⟨rfl, rfl⟩

/-- A tool call's error is no complaint about the copy, muted or not. -/
theorem KnowledgeError.IsWire.mute_ne {e : KnowledgeError} (h : e.IsWire) (path : String) :
    e ≠ .mustReadFirst path ∧ e.mute ≠ .mustReadFirst path := by
  rcases h with ⟨m, rfl⟩ | ⟨m, rfl⟩ <;> exact ⟨nofun, nofun⟩

/-- A read that returned a note returned the standing confirmation, marked stale exactly when the client
is left offline, and a fresh one otherwise. -/
theorem Ending.of_read {r : ReadResult}
    (h : Ending fromStr n before J last now op (.read (.ok r)) after)
    (hcache : after.cache = cacheOf fromStr (J ++ [last])) :
    ∃ path k, op = .read path ∧ cacheOf fromStr (J ++ [last]) path = some k ∧
      r = ⟨path, k.content, k.version, after.offline⟩ ∧
      (after.offline = false → now < k.fetchedAt + CACHE_TTL) := by
  generalize ho : Outcome.read (.ok r) = outcome at h
  cases h with
  | @hit _ _ path k _ hopen hk hfresh hon =>
    cases ho
    refine ⟨path, k, rfl, ?_, by rw [hon], ?_⟩
    · rw [cacheOf_quiet hopen.confirms hopen.discards]
      exact hk
    · intro _
      exact CacheEntry.lt_of_fresh hfresh
  | @fetched _ _ _ path k _ hk htime hon =>
    cases ho
    refine ⟨path, k, rfl, ?_, by rw [hon], ?_⟩
    · rw [cacheOf_snoc, Entry.learn_of_confirms hk]
      exact Cache.insert_same _ _ _
    · intro _
      rw [htime]
      exact Nat.lt_add_of_pos_right (by decide)
  | @fallback _ _ path e _ hn hc hdown =>
    cases hk : after.cache path with
    | none =>
      simp only [cachedStale, hk, Option.map_none, Option.elim_none, Outcome.read.injEq,
        reduceCtorEq] at ho
    | some k =>
      simp only [cachedStale, hk, Option.map_some, Option.elim_some, Outcome.read.injEq,
        Except.ok.injEq] at ho
      refine ⟨path, k, rfl, hcache ▸ hk, by rw [ho, hdown.1], ?_⟩
      intro hon
      rw [hdown.1] at hon
      cases hon
  | _ => cases ho

/-- A write was turned away for want of a copy. -/
theorem Ending.of_mustRead {path : String}
    (h : Ending fromStr n before J last now op (.write (.error (.mustReadFirst path))) after) :
    last.Opens n ∧ writesOf n J = [] ∧ after.cache = before.cache := by
  generalize ho : Outcome.write (.error (.mustReadFirst path)) = outcome at h
  cases h with
  | mustRead hopen hnone hcache => exact ⟨hopen, hnone, hcache⟩
  | unrevalidated _ _ hwire =>
    simp only [Outcome.write.injEq, Except.error.injEq] at ho
    exact absurd ho.symm (hwire.mute_ne path).1
  | failed _ _ hwire =>
    simp only [Outcome.write.injEq, Except.error.injEq] at ho
    exact absurd ho.symm (hwire.mute_ne path).2
  | unreread _ _ _ hwire =>
    simp only [Outcome.write.injEq, Except.error.injEq] at ho
    exact absurd ho.symm (hwire.mute_ne path).2
  | _ => cases ho

/-- A write that came back muted put nothing on the wire, or lost its request there, or had it refused
by the server. -/
theorem Ending.of_muted
    (h : Ending fromStr n before J last now op (.write (.error .muted)) after) :
    writesOf n J = [] ∨
    (∃ rid call m, writesOf n J = [(rid, call)] ∧ call.isWrite = true ∧ m.isTransport = true ∧
      last = .answered n (some rid) call (.error m) now) ∨
    ∃ rid call text time, writesOf n J = [(rid, call)] ∧
      .answered n (some rid) call (.ok (text, true)) time ∈ J := by
  generalize ho : Outcome.write (.error .muted) = outcome at h
  cases h with
  | refused hnone => exact .inl hnone
  | unrevalidated hc hnone => exact .inl hnone
  | unreread hc hwrites hrefused => exact .inr (.inr ⟨_, _, _, _, hwrites, hrefused⟩)
  | @failed rid reply _ path content expected e _ hc hwrites hwire hiff =>
    simp only [Outcome.write.injEq, Except.error.injEq] at ho
    have htransport : ∃ t, e = .transport t := by
      rcases hwire with hm | ⟨m, rfl⟩
      · exact hm
      · cases ho
    obtain ⟨m, rfl, hm⟩ := hiff.mp htransport
    cases rid with
    | none => exact .inl hwrites
    | some rid => exact .inr (.inl ⟨rid, _, m, hwrites, rfl, hm, rfl⟩)
  | _ => cases ho

/-- A write lost on the wire comes back muted. -/
theorem Ending.of_lostWrite {request : Option Nat} {path content : String}
    {expected : Option String} {m : McpError} {time : Instant} {outcome : Outcome}
    (hm : m.isTransport = true)
    (h : Ending fromStr n before J
      (.answered n request (.vaultWrite path content expected) (.error m) time) now op outcome
      after) :
    outcome = .write (.error .muted) := by
  have hopens : ∀ {e : Entry}, e.Opens n →
      e ≠ .answered n request (.vaultWrite path content expected) (.error m) time := by
    intro e ho he
    rcases ho with ⟨op, before, rfl⟩ | ⟨conn, rfl⟩ <;> cases he
  cases h with
  | hit hopen => exact absurd rfl (hopens hopen)
  | mustRead hopen => exact absurd rfl (hopens hopen)
  | fallback hn => rcases hn with ⟨err, he⟩ | ⟨rid, reply, time, he⟩ <;> cases he
  | written hk => cases hk
  | failed hc hwrites hwire hiff =>
    obtain ⟨t, rfl⟩ := hiff.mpr ⟨m, rfl, hm⟩
    rfl

end

end GooseClaw
