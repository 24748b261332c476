import GooseClaw.Vault.Client

/-!
# The client's calls as an automaton

A call on the client waits at four kinds of place: for the reconnect, for a connection a fetch or a
write needs, and for the reply to `vault_read` or `vault_write`. `Phase` writes these places down with
what each holds, and the transition functions say where an answer leads; a fetch remembers why it is
made, since its failure ends a read, a revalidation and a conflict's re-read differently.

`start_follows` connects the automaton to the client's programs: from every client, in every call, it
asks the same questions and ends with the same result. What is proved about phases is so proved about
the functions of the source.
-/

namespace GooseClaw

open Found VaultClient

/-- Why a note is being fetched. -/
inductive Errand
  | read
  | revalidate (content : String)
  | reread

/-- Where a call waits, or how it ended. -/
inductive Phase
  | reconnecting (op : Op) (c : VaultClient)
  | dialing (why : Errand) (path : String) (c : VaultClient)
  | fetching (why : Errand) (path : String) (conn : ConnId) (c : VaultClient)
  | dialingWrite (path content : String) (expected : Option String) (c : VaultClient)
  | writing (path content : String) (expected : Option String) (conn : ConnId) (c : VaultClient)
  | done (outcome : Outcome) (c : VaultClient)

namespace Phase

/-- The client a phase holds. -/
def client : Phase → VaultClient
  | .reconnecting _ c => c
  | .dialing _ _ c => c
  | .fetching _ _ _ c => c
  | .dialingWrite _ _ _ c => c
  | .writing _ _ _ _ c => c
  | .done _ c => c

/-! ## Transitions -/

/-- Fetch a note, over the connection if there is one. -/
def fetch (why : Errand) (path : String) (c : VaultClient) : Phase :=
  match c.offline, c.conn with
  | false, some conn => .fetching why path conn c
  | _, _ => .dialing why path c

/-- Send the write, over the connection if there is one. -/
def send (path content : String) (expected : Option String) (c : VaultClient) : Phase :=
  match c.offline, c.conn with
  | false, some conn => .writing path content expected conn c
  | _, _ => .dialingWrite path content expected c

/-- The write with the version of the local copy. -/
def submit (path content : String) (c : VaultClient) : Phase :=
  match c.cache path with
  | none => .done (.write (.error (.mustReadFirst path))) c
  | some e => send path content e.version c

/-- A read offline: from the cache or not at all. -/
def readOffline (path : String) (e : KnowledgeError) (c : VaultClient) : Phase :=
  match c.cachedStale path with
  | some cached => .done (.read (.ok cached)) c
  | none => .done (.read (.error e)) c

/-- A call whose client is online. -/
def online (op : Op) (now : Instant) (c : VaultClient) : Phase :=
  match op with
  | .read path =>
    match (c.cache path).filter (CacheEntry.fresh now) with
    | some e => .done (.read (.ok ⟨path, e.content, e.version, false⟩)) c
    | none => fetch .read path c
  | .write path content =>
    if c.needsRevalidation then fetch (.revalidate content) path c else submit path content c

/-- A call whose client is offline. -/
def offline (op : Op) (c : VaultClient) : Phase :=
  match op with
  | .read path => readOffline path .offline c
  | .write _ _ => .done (.write (.error .muted)) c

def start (op : Op) (c : VaultClient) (now : Instant) : Phase :=
  if c.offline then .reconnecting op c else online op now c

/-- The reconnect was answered. -/
def reconnected (op : Op) (c : VaultClient) (now : Instant) :
    Except ConnectError ConnId → Phase
  | .ok conn => online op now (c.connected conn)
  | .error _ => offline op c.markOfflineOf

/-- A fetch ended with a note. -/
def fetched (why : Errand) (r : ReadResult) (path : String) (c : VaultClient) : Phase :=
  match why with
  | .read => .done (.read (.ok r)) c
  | .revalidate content => submit path content { c with needsRevalidation := false }
  | .reread => .done (.write (.ok (.conflict r))) c

/-- The write failed: the client goes offline, and a dead connection reads as a mute. -/
def writeFailed (e : KnowledgeError) (c : VaultClient) : Phase :=
  match e with
  | .transport _ => .done (.write (.error .muted)) c.markOfflineOf
  | e => .done (.write (.error e)) c.markOfflineOf

/-- A fetch failed. A revalidation's failure leaves the client as it is. -/
def fetchFailed (why : Errand) (e : KnowledgeError) (path : String) (c : VaultClient) : Phase :=
  match why with
  | .read => readOffline path e c.markOfflineOf
  | .revalidate _ => .done (.write (.error e)) c
  | .reread => writeFailed e c

/-- The client with the note a confirmation brought. -/
def learned (c : VaultClient) (path : String) (e : CacheEntry) : VaultClient :=
  { c with cache := c.cache.insert path e }

/-- The client without its copy of a note. -/
def discarded (c : VaultClient) (path : String) : VaultClient :=
  { c with cache := c.cache.remove path }

variable (fromStr : String → Except String Json)

/-- `vault_read` was answered. -/
def readAnswered (why : Errand) (path : String) (c : VaultClient) (now : Instant) :
    ToolReply → Phase
  | .error e => fetchFailed why (connErr e) path c
  | .ok (text, true) => fetchFailed why (.protocol ("vault_read refused: " ++ text)) path c
  | .ok (text, false) =>
    match fromStr text with
    | .error e => fetchFailed why (.protocol e) path c
    | .ok body =>
      let content := (body.getStr "content").getD ""
      let version := body.getStr "expectedVersion"
      fetched why ⟨path, content, version, false⟩ path (learned c path ⟨content, version, now⟩)

/-- `vault_write` was answered. -/
def writeAnswered (path content : String) (c : VaultClient) (now : Instant) : ToolReply → Phase
  | .error e => writeFailed (connErr e) c
  | .ok (text, isError) =>
    match fromStr text with
    | .error e => writeFailed (.protocol e) c
    | .ok body =>
      if isError then
        if isConflict text body then fetch .reread path (discarded c path)
        else writeFailed (.protocol ("vault_write refused: " ++ text)) c
      else
        match body.getStr "version" with
        | none => writeFailed (.protocol "write ok but no version returned") c
        | some version =>
          .done (.write (.ok (.written version))) (learned c path ⟨content, some version, now⟩)

/-- What a phase waits for, and where each answer leads. -/
def view : Phase → View Ask Ask.Answer (Outcome × VaultClient) Phase
  | .reconnecting op c => .waiting .connect fun answer => reconnected op c answer.2 answer.1
  | .dialing why path c => .waiting .connect fun answer =>
    match answer.1 with
    | .ok conn => .fetching why path conn (c.connected conn)
    | .error e => fetchFailed why (connectErr e) path c
  | .fetching why path conn c => .waiting (.callTool conn (.vaultRead path)) fun answer =>
    readAnswered fromStr why path c answer.2 answer.1
  | .dialingWrite path content expected c => .waiting .connect fun answer =>
    match answer.1 with
    | .ok conn => .writing path content expected conn (c.connected conn)
    | .error e => writeFailed (connectErr e) c
  | .writing path content expected conn c =>
    .waiting (.callTool conn (.vaultWrite path content expected)) fun answer =>
      writeAnswered fromStr path content c answer.2 answer.1
  | .done outcome c => .done (outcome, c)

/-! ## The automaton follows the programs -/

variable {fromStr}

section Fetch

variable {why : Errand} {path : String}
  {next : Except KnowledgeError ReadResult × Session →
    Program Ask Ask.Answer (Outcome × VaultClient)}
  (hok : ∀ r c now, Follows (view fromStr) (fetched why r path c) (next (.ok r, ⟨c, now⟩)))
  (herr : ∀ e c now, Follows (view fromStr) (fetchFailed why e path c)
    (next (.error e, ⟨c, now⟩)))

include hok herr

/-- Over a live connection, a fetch does what `read_live` does. -/
theorem fetching_follows (conn : ConnId) (cache : Cache) (reval : Bool) (now : Instant) :
    Follows (view fromStr) (.fetching why path conn ⟨some conn, cache, false, reval⟩)
      (((readLive fromStr path).exec ⟨⟨some conn, cache, false, reval⟩, now⟩).bind next) := by
  simp only [readLive, ensureConn, exec_bind, exec_getClient, exec_pure, Program.ret_bind]
  apply Follows.waiting rfl
  intro answer
  obtain ⟨e | ⟨text, _ | _⟩, now'⟩ := answer
  · exact herr _ _ _
  · cases hbody : fromStr text with
    | error e =>
      simp only [readAnswered, Program.ret_bind, hbody]
      exact herr _ _ _
    | ok body =>
      simp only [readAnswered, Program.ret_bind, hbody]
      exact hok _ _ _
  · exact herr _ _ _

/-- Without a live connection, a fetch dials first and then goes on over the new one. -/
theorem dialing_follows (c : VaultClient)
    {cont : Ask.Answer .connect → Program Ask Ask.Answer (Outcome × VaultClient)}
    (hconn : ∀ conn now, cont (.ok conn, now) =
      ((readLive fromStr path).exec ⟨c.connected conn, now⟩).bind next)
    (hfail : ∀ e now, cont (.error e, now) = next (.error (connectErr e), ⟨c, now⟩)) :
    Follows (view fromStr) (.dialing why path c) (.ask .connect cont) := by
  apply Follows.waiting rfl
  intro answer
  obtain ⟨e | conn, now⟩ := answer
  · rw [hfail]
    exact herr _ _ _
  · rw [hconn]
    exact fetching_follows hok herr _ _ _ _

/-- A fetch does what `read_live` does. -/
theorem fetch_follows (c : VaultClient) (now : Instant) :
    Follows (view fromStr) (fetch why path c)
      (((readLive fromStr path).exec ⟨c, now⟩).bind next) := by
  obtain ⟨conn, cache, _ | _, reval⟩ := c
  · cases conn with
    | some conn => exact fetching_follows hok herr _ _ _ _
    | none => exact dialing_follows hok herr _ (fun _ _ => rfl) (fun _ _ => rfl)
  · exact dialing_follows hok herr _ (fun _ _ => rfl) (fun _ _ => rfl)

end Fetch

section Send

variable {path content : String} {expected : Option String}
  {next : Except KnowledgeError WriteOutcome × Session →
    Program Ask Ask.Answer (Outcome × VaultClient)}
  (hok : ∀ o c now, Follows (view fromStr) (.done (.write (.ok o)) c) (next (.ok o, ⟨c, now⟩)))
  (herr : ∀ e c now, Follows (view fromStr) (writeFailed e c) (next (.error e, ⟨c, now⟩)))

include hok herr

/-- Over a live connection, a write does what `try_write` does. -/
theorem writing_follows (conn : ConnId) (cache : Cache) (reval : Bool) (now : Instant) :
    Follows (view fromStr) (.writing path content expected conn ⟨some conn, cache, false, reval⟩)
      (((tryWrite fromStr path content expected).exec
        ⟨⟨some conn, cache, false, reval⟩, now⟩).bind next) := by
  simp only [tryWrite, ensureConn, exec_bind, exec_getClient, exec_pure, Program.ret_bind]
  apply Follows.waiting rfl
  intro answer
  obtain ⟨e | ⟨text, isError⟩, now'⟩ := answer
  · exact herr _ _ _
  · cases hbody : fromStr text with
    | error e =>
      simp only [writeAnswered, Program.ret_bind, hbody]
      exact herr _ _ _
    | ok body =>
      simp only [writeAnswered, Program.ret_bind, hbody]
      cases isError with
      | true =>
        cases hconflict : isConflict text body with
        | false =>
          simp only [Bool.false_eq_true, if_true, if_false]
          exact herr _ _ _
        | true =>
          -- the re-read is a fetch whose note is returned as the conflict's
          simp only [if_true, exec_bind, exec_modifyClient, Program.ret_bind, Program.bind_assoc]
          apply fetch_follows
          · intro r c now
            exact hok _ _ _
          · intro e c now
            exact herr _ _ _
      | false =>
        simp only [Bool.false_eq_true, if_false]
        cases hversion : body.getStr "version" with
        | none => exact herr _ _ _
        | some version => exact hok _ _ _

/-- Without a live connection, a write dials first. -/
theorem dialingWrite_follows (c : VaultClient)
    {cont : Ask.Answer .connect → Program Ask Ask.Answer (Outcome × VaultClient)}
    (hconn : ∀ conn now, cont (.ok conn, now) =
      ((tryWrite fromStr path content expected).exec ⟨c.connected conn, now⟩).bind next)
    (hfail : ∀ e now, cont (.error e, now) = next (.error (connectErr e), ⟨c, now⟩)) :
    Follows (view fromStr) (.dialingWrite path content expected c) (.ask .connect cont) := by
  apply Follows.waiting rfl
  intro answer
  obtain ⟨e | conn, now⟩ := answer
  · rw [hfail]
    exact herr _ _ _
  · rw [hconn]
    exact writing_follows hok herr _ _ _ _

/-- A write does what `try_write` does. -/
theorem send_follows (c : VaultClient) (now : Instant) :
    Follows (view fromStr) (send path content expected c)
      (((tryWrite fromStr path content expected).exec ⟨c, now⟩).bind next) := by
  obtain ⟨conn, cache, _ | _, reval⟩ := c
  · cases conn with
    | some conn => exact writing_follows hok herr _ _ _ _
    | none => exact dialingWrite_follows hok herr _ (fun _ _ => rfl) (fun _ _ => rfl)
  · exact dialingWrite_follows hok herr _ (fun _ _ => rfl) (fun _ _ => rfl)

end Send

/-! ## The calls -/

/-- What a read call makes of the result of its program. -/
abbrev readResult (x : Except KnowledgeError ReadResult × Session) :
    Program Ask Ask.Answer (Outcome × VaultClient) := .ret (.read x.1, x.2.client)

/-- What a write call makes of the result of its program. -/
abbrev writeResult (x : Except KnowledgeError WriteOutcome × Session) :
    Program Ask Ask.Answer (Outcome × VaultClient) := .ret (.write x.1, x.2.client)

theorem submit_follows (path content : String) (c : VaultClient) (now : Instant) :
    Follows (view fromStr) (submit path content c)
      (((writeLocal fromStr path content).exec ⟨c, now⟩).bind writeResult) := by
  unfold submit
  simp only [writeLocal, exec_bind, exec_getClient, Program.ret_bind]
  cases hcache : c.cache path with
  | none => exact .done rfl
  | some e =>
    simp only [exec_bind, exec_attempt, Program.bind_assoc, Program.ret_bind]
    apply send_follows
    · intro o c now
      exact .done rfl
    · intro e c now
      cases e <;> exact .done rfl

/-- A read offline does what the end of `read` does. -/
theorem readOffline_follows (path : String) (e : KnowledgeError) (c : VaultClient)
    (now : Instant) :
    Follows (view fromStr) (readOffline path e c)
      (((okOr (c.cachedStale path) e).exec ⟨c, now⟩).bind readResult) := by
  rw [exec_okOr]
  unfold readOffline
  cases c.cachedStale path with
  | none => exact .done rfl
  | some cached => exact .done rfl

/-- Online, a read does what `read` does. -/
theorem read_online_follows (path : String) {c : VaultClient} (now : Instant)
    (h : c.offline = false) :
    Follows (view fromStr) (online (.read path) now c)
      (((VaultClient.read fromStr path).exec ⟨c, now⟩).bind readResult) := by
  simp only [VaultClient.read, maybeReconnect, online, exec_bind, exec_getClient, exec_pure,
    exec_get, Program.ret_bind, h, Bool.not_false, if_true]
  cases hfresh : (c.cache path).filter (CacheEntry.fresh now) with
  | some e => exact .done rfl
  | none =>
    simp only [exec_bind, exec_attempt, Program.bind_assoc, Program.ret_bind]
    apply fetch_follows
    · intro r c now
      exact .done rfl
    · intro e c now
      exact readOffline_follows path e _ now

/-- Online, a write does what `write` does. -/
theorem write_online_follows (path content : String) {c : VaultClient} (now : Instant)
    (h : c.offline = false) :
    Follows (view fromStr) (online (.write path content) now c)
      (((VaultClient.write fromStr path content).exec ⟨c, now⟩).bind writeResult) := by
  simp only [VaultClient.write, maybeReconnect, online, exec_bind, exec_getClient, exec_pure,
    Program.ret_bind, h, Bool.not_false, if_true, Bool.false_eq_true, if_false]
  cases hreval : c.needsRevalidation with
  | false =>
    simp only [Bool.false_eq_true, if_false]
    exact submit_follows path content c now
  | true =>
    simp only [if_true, exec_bind, exec_modifyClient, Program.bind_assoc, Program.ret_bind]
    apply fetch_follows
    · intro r c now
      exact submit_follows path content _ now
    · intro e c now
      exact .done rfl

/-- **Every call of the automaton is the program's**: from every client and at every clock reading,
the start of a call asks what the function of the source asks, and ends as it ends. -/
theorem start_follows (op : Op) (c : VaultClient) (now : Instant) :
    Follows (view fromStr) (start op c now) (op.program fromStr c now) := by
  obtain ⟨conn, cache, _ | _, reval⟩ := c
  · cases op with
    | read path => exact read_online_follows path now rfl
    | write path content => exact write_online_follows path content now rfl
  · -- offline: the reconnect is answered first, and the rest runs as online or offline
    cases op with
    | read path =>
      apply Follows.waiting rfl
      intro answer
      obtain ⟨e | conn', now'⟩ := answer
      · exact readOffline_follows path .offline _ now'
      · exact read_online_follows path now' rfl
    | write path content =>
      apply Follows.waiting rfl
      intro answer
      obtain ⟨e | conn', now'⟩ := answer
      · exact .done rfl
      · exact write_online_follows path content now' rfl

end Phase

end GooseClaw
