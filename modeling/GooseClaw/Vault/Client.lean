import Mathlib.Data.List.Infix
import GooseClaw.Found.Program
import GooseClaw.Vault.Wire

/-!
# The vault client

`crates/gooseclaw-knowledge/src/client.rs`, function by function, as interaction programs: the client
asks its surroundings for a connection or for a tool call, and nothing else. An answer comes with the
clock reading at which the client goes on; between two answers the clock stands.

The names and the control flow are the source's. An early return by `?` is the error of `ExceptT`, and
an error keeps the client as it was changed, as `&mut self` does.
-/

namespace GooseClaw

open Found

/-! ## Data -/

/-- Nanoseconds of the monotone clock. -/
abbrev Instant := Nat

/-- O5 staleness bound: 60 s. -/
def CACHE_TTL : Nat := 60 * 1000000000

inductive KnowledgeError
  | offline
  | muted
  | mustReadFirst (path : String)
  | transport (message : String)
  | protocol (message : String)
  deriving DecidableEq

/-- `impl Display for KnowledgeError`. -/
def KnowledgeError.display : KnowledgeError → String
  | .offline => "Alfred offline; note not in cache"
  | .muted => "Alfred offline; write muted (never queued)"
  | .mustReadFirst p => "no cached version for " ++ p ++ "; read before write"
  | .transport e => "transport: " ++ e
  | .protocol e => "protocol: " ++ e

structure ReadResult where
  path : String
  content : String
  expectedVersion : Option String
  stale : Bool
  deriving DecidableEq

inductive WriteOutcome
  | written (version : String)
  | conflict (fresh : ReadResult)
  deriving DecidableEq

structure CacheEntry where
  content : String
  version : Option String
  fetchedAt : Instant
  deriving DecidableEq

/-- `fetched_at.elapsed() < CACHE_TTL`. -/
def CacheEntry.fresh (now : Instant) (e : CacheEntry) : Bool := now - e.fetchedAt < CACHE_TTL

theorem CacheEntry.lt_of_fresh {now : Instant} {e : CacheEntry} (h : e.fresh now = true) :
    now < e.fetchedAt + CACHE_TTL := by
  have elapsed : ∀ a b c : Nat, a - b < c → a < b + c := by
    intro a b c h
    omega
  exact elapsed _ _ _ (of_decide_eq_true h)

/-- The cache, a map from paths. -/
abbrev Cache := String → Option CacheEntry

namespace Cache

def empty : Cache := fun _ => none

def insert (cache : Cache) (path : String) (e : CacheEntry) : Cache :=
  fun q => if q = path then some e else cache q

def remove (cache : Cache) (path : String) : Cache :=
  fun q => if q = path then none else cache q

@[simp] theorem insert_same (cache : Cache) (p : String) (e : CacheEntry) :
    cache.insert p e p = some e := if_pos rfl

theorem insert_other (cache : Cache) {p q : String} (e : CacheEntry) (h : q ≠ p) :
    cache.insert p e q = cache q := if_neg h

@[simp] theorem remove_same (cache : Cache) (p : String) : cache.remove p p = none := if_pos rfl

theorem remove_other (cache : Cache) {p q : String} (h : q ≠ p) :
    cache.remove p q = cache q := if_neg h

end Cache

/-- The federation client, less its connection factory, which is the surroundings' answer. -/
structure VaultClient where
  conn : Option ConnId
  cache : Cache
  offline : Bool
  needsRevalidation : Bool

def VaultClient.new : VaultClient :=
  { conn := none, cache := Cache.empty, offline := false, needsRevalidation := false }

/-! ## Effects -/

/-- What the client asks for. -/
inductive Ask
  | connect
  | callTool (conn : ConnId) (call : ToolCall)

abbrev Ask.Reply : Ask → Type
  | .connect => Except ConnectError ConnId
  | .callTool _ _ => ToolReply

/-- A reply and the clock reading at which the client goes on. -/
abbrev Ask.Answer (q : Ask) : Type := q.Reply × Instant

/-- The client and the clock reading. -/
structure Session where
  client : VaultClient
  now : Instant

/-- The functions of the client. -/
abbrev ClientM := ExceptT KnowledgeError (StateT Session (Program Ask Ask.Answer))

/-- Run a function of the client from a session. -/
def ClientM.exec {α : Type} (x : ClientM α) (s : Session) :
    Program Ask Ask.Answer (Except KnowledgeError α × Session) := x.run.run s

namespace VaultClient

/-- Ask, and go on at the clock reading of the answer. -/
def ask (q : Ask) : ClientM q.Reply :=
  ExceptT.mk fun s => .ask q fun answer => .ret (.ok answer.1, { s with now := answer.2 })

/-- Run a fallible step and look at its result. -/
def attempt {α : Type} (x : ClientM α) : ClientM (Except KnowledgeError α) :=
  ExceptT.mk (Except.ok <$> x.run)

def getClient : ClientM VaultClient := return (← get).client

def modifyClient (f : VaultClient → VaultClient) : ClientM Unit :=
  modify fun s => { s with client := f s.client }

/-- `Option::ok_or`, and raise it. -/
def okOr {α : Type} (o : Option α) (e : KnowledgeError) : ClientM α :=
  match o with
  | some a => return a
  | none => throw e

section Exec

variable {α β : Type} (s : Session)

@[simp] theorem exec_pure (a : α) : (pure a : ClientM α).exec s = .ret (.ok a, s) := rfl

@[simp] theorem exec_bind (x : ClientM α) (f : α → ClientM β) :
    (x >>= f).exec s = (x.exec s).bind fun r =>
      match r.1 with
      | .ok a => (f a).exec r.2
      | .error e => .ret (.error e, r.2) := by
  apply congrArg (Program.bind (x.exec s))
  ext1 r
  obtain ⟨e | a, s⟩ := r <;> rfl

@[simp] theorem exec_get : (get : ClientM Session).exec s = .ret (.ok s, s) := rfl

@[simp] theorem exec_getClient : getClient.exec s = .ret (.ok s.client, s) := rfl

@[simp] theorem exec_modifyClient (f : VaultClient → VaultClient) :
    (modifyClient f).exec s = .ret (.ok (), { s with client := f s.client }) := rfl

@[simp] theorem exec_attempt (x : ClientM α) :
    (attempt x).exec s = (x.exec s).bind fun r => .ret (.ok r.1, r.2) := rfl

@[simp] theorem exec_okOr (o : Option α) (e : KnowledgeError) :
    (okOr o e).exec s = .ret (o.elim (.error e) .ok, s) := by
  cases o <;> rfl

end Exec

/-! ## Functions of the source -/

/-- How `ensure_conn` maps the factory's and the handshake's error. -/
def connectErr : ConnectError → KnowledgeError
  | .factory e => .transport e
  | .handshake e => .protocol e.display

/-- How `conn_err` maps the error of a call. -/
def connErr : McpError → KnowledgeError
  | .transport m => .transport m
  | .timeout => .transport "timeout"
  | other => .protocol other.display

/-- The client with a new connection; one made after an outage arms revalidation. -/
def connected (conn : ConnId) (c : VaultClient) : VaultClient :=
  { c with
    conn := some conn
    offline := false
    needsRevalidation := c.needsRevalidation || c.offline }

def markOfflineOf (c : VaultClient) : VaultClient := { c with offline := true, conn := none }

/-- Ensure a live connection, connecting when offline or absent. -/
def ensureConn : ClientM ConnId := do
  let c ← getClient
  match c.offline, c.conn with
  | false, some conn => return conn
  | _, _ =>
    match ← ask .connect with
    | .ok conn =>
      modifyClient (connected conn)
      return conn
    | .error e => throw (connectErr e)

def markOffline : ClientM Unit := modifyClient markOfflineOf

/-- If offline, attempt one lazy reconnect. -/
def maybeReconnect : ClientM Unit := do
  if !(← getClient).offline then
    return
  match ← attempt ensureConn with
  | .ok _ => return
  | .error _ => markOffline

def cachedStale (c : VaultClient) (path : String) : Option ReadResult :=
  (c.cache path).map fun e => ⟨path, e.content, e.version, true⟩

variable (fromStr : String → Except String Json)

def readLive (path : String) : ClientM ReadResult := do
  let conn ← ensureConn
  match ← ask (.callTool conn (.vaultRead path)) with
  | .error e => throw (connErr e)
  | .ok (text, isError) =>
    if isError then
      throw (.protocol ("vault_read refused: " ++ text))
    match fromStr text with
    | .error e => throw (.protocol e)
    | .ok body =>
      let r : ReadResult :=
        { path
          content := (body.getStr "content").getD ""
          expectedVersion := body.getStr "expectedVersion"
          stale := false }
      let now := (← get).now
      modifyClient fun c =>
        { c with cache := c.cache.insert path ⟨r.content, r.expectedVersion, now⟩ }
      return r

/-- Read a note. -/
def read (path : String) : ClientM ReadResult := do
  maybeReconnect
  let c ← getClient
  if !c.offline then
    match (c.cache path).filter (CacheEntry.fresh (← get).now) with
    | some e => return ⟨path, e.content, e.version, false⟩
    | none =>
      match ← attempt (readLive fromStr path) with
      | .ok r => return r
      | .error e =>
        markOffline
        okOr ((← getClient).cachedStale path) e
  else
    okOr (c.cachedStale path) .offline

/-- `text.contains("CONFLICT")`, or the body says so. -/
def isConflict (text : String) (body : Json) : Bool :=
  body.getStr "error" == some "CONFLICT" || "CONFLICT".toList <:+: text.toList

def tryWrite (path content : String) (expected : Option String) : ClientM WriteOutcome := do
  let conn ← ensureConn
  match ← ask (.callTool conn (.vaultWrite path content expected)) with
  | .error e => throw (connErr e)
  | .ok (text, isError) =>
    match fromStr text with
    | .error e => throw (.protocol e)
    | .ok body =>
      if isError then
        if isConflict text body then
          modifyClient fun c => { c with cache := c.cache.remove path }
          let fresh ← readLive fromStr path
          return .conflict fresh
        throw (.protocol ("vault_write refused: " ++ text))
      match body.getStr "version" with
      | none => throw (.protocol "write ok but no version returned")
      | some version =>
        let now := (← get).now
        modifyClient fun c =>
          { c with cache := c.cache.insert path ⟨content, some version, now⟩ }
        return .written version

/-- The last part of `write`: offer the version of the local copy; a failure takes the client offline,
and a dead connection is reported as a mute. -/
def writeLocal (path content : String) : ClientM WriteOutcome := do
  match (← getClient).cache path with
  | none => throw (.mustReadFirst path)
  | some e =>
    match ← attempt (tryWrite fromStr path content e.version) with
    | .ok outcome => return outcome
    | .error e =>
      markOffline
      match e with
      | .transport _ => throw .muted
      | other => throw other

/-- Write through the server's `vault_write` tool with the expected version of the local copy. -/
def write (path content : String) : ClientM WriteOutcome := do
  maybeReconnect
  if (← getClient).offline then
    throw .muted
  if (← getClient).needsRevalidation then
    let _ ← readLive fromStr path
    modifyClient fun c => { c with needsRevalidation := false }
  writeLocal fromStr path content

end VaultClient

/-! ## Calls -/

/-- A call on the client. -/
inductive Op
  | read (path : String)
  | write (path content : String)
  deriving DecidableEq

/-- What a call returns. -/
inductive Outcome
  | read (result : Except KnowledgeError ReadResult)
  | write (result : Except KnowledgeError WriteOutcome)

/-- The program of a call: what it returns, and the client it leaves. -/
def Op.program (fromStr : String → Except String Json) (op : Op) (c : VaultClient)
    (now : Instant) : Program Ask Ask.Answer (Outcome × VaultClient) :=
  match op with
  | .read path =>
    ((VaultClient.read fromStr path).exec ⟨c, now⟩).bind fun (result, s) =>
      .ret (.read result, s.client)
  | .write path content =>
    ((VaultClient.write fromStr path content).exec ⟨c, now⟩).bind fun (result, s) =>
      .ret (.write result, s.client)

end GooseClaw
