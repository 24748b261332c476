import GooseClaw.Text
import GooseClaw.Found.Machine
import GooseClaw.Vault.Wire

/-!
# The MCP connection

`crates/gooseclaw-knowledge/src/mcp.rs`: newline-delimited JSON-RPC over one pair of streams, with the
era probe and the handshake. `serde_json`'s parser is a parameter.

What the surroundings do is laid out in the connection, for the functions to come upon. `unread` is
what the reads of the connection will find, in order: whole lines, a failed read, the end of the
stream, and the points at which the deadline of the call in progress passes. `writes` is what becomes
of the next writes. `L` is whatever stands for a line; the client sees its `text`.
-/

namespace GooseClaw

/-! ## Constants -/

def LEGACY_VERSION : String := "2025-11-25"

def MODERN_META_KEY : String := "io.modelcontextprotocol/protocolVersion"

def MODERN_PROBE_VERSION : String := "2026-07-28"

def UNSUPPORTED_PROTOCOL_VERSION : Int := -32022

/-- `env!("CARGO_PKG_VERSION")`. -/
def CARGO_PKG_VERSION : String := "0.1.0"

/-! ## The streams -/

/-- What a read finds, or that the deadline passes before it finds anything. -/
inductive Reading (L : Type*)
  | line (l : L)
  | failed (message : String)
  | eof
  | deadline

/-- How the server identified itself during the era probe. -/
inductive ServerEra
  | dualEraAware (supported : List String)
  | legacy
  deriving DecidableEq

/-- `matches!(era, ServerEra::DualEraAware { .. })`. -/
def ServerEra.isDualEraAware : ServerEra → Bool
  | .dualEraAware _ => true
  | .legacy => false

/-- A connection with its two streams. `sent` is what was written so far. -/
structure McpConnection (L : Type*) where
  unread : List (Reading L)
  writes : List (Option String)
  sent : List Json
  nextId : UInt64
  era : ServerEra
  negotiatedVersion : String

/-! ## Messages -/

/-- What a line of the stream is once it is trimmed and parsed. -/
inductive LineContent
  | blank
  | unparsable (message : String)
  | message (msg : Json)

/-- The id a message carries, if it is one the client could have given. -/
def messageId (msg : Json) : Option UInt64 := (msg.get "id").bind Json.asU64

/-- `err.get("code")` as `roundtrip` reads it. -/
def errorCode (err : Json) : Int := ((err.get "code").bind Json.asI64).getD 0

/-- What a message with the right id is taken for. -/
def answer (msg : Json) : Except McpError Json :=
  match msg.get "error" with
  | some err => .error (.remote (errorCode err) ((err.getStr "message").getD "error"))
  | none => .ok ((msg.get "result").getD .null)

def idNumber (id : UInt64) : Json := .number id.toNat.repr

def requestMessage (id : UInt64) (method : String) (params : Json) : Json :=
  .object [("jsonrpc", .string "2.0"), ("id", idNumber id), ("method", .string method),
    ("params", params)]

def notificationMessage (method : String) (params : Json) : Json :=
  .object [("jsonrpc", .string "2.0"), ("method", .string method), ("params", params)]

namespace McpConnection

variable {L : Type*} (fromStr : String → Except String Json) (text : L → String)

def content (l : L) : LineContent :=
  let trimmed := trim (text l).toList
  if trimmed.isEmpty then .blank
  else
    match fromStr (String.ofList trimmed) with
    | .error e => .unparsable e
    | .ok msg => .message msg

/-! ## Requests -/

/-- `send_value`. A JSON value always serialises. -/
def sendValue (conn : McpConnection L) (v : Json) : Except McpError Unit × McpConnection L :=
  match conn.writes with
  | some e :: rest => (.error (.transport e), { conn with writes := rest })
  | none :: rest => (.ok (), { conn with writes := rest, sent := conn.sent ++ [v] })
  | [] => (.ok (), { conn with sent := conn.sent ++ [v] })

def notify (conn : McpConnection L) (method : String) (params : Json) :
    Except McpError Unit × McpConnection L :=
  conn.sendValue (notificationMessage method params)

/-- The loop of `roundtrip` under its timeout: what it returns, and what it leaves unread. A stream
with nothing more in it runs into the deadline; its end stays where it is. -/
def awaitAnswer (id : UInt64) : List (Reading L) → Except McpError Json × List (Reading L)
  | [] => (.error .timeout, [])
  | .deadline :: rest => (.error .timeout, rest)
  | .failed e :: rest => (.error (.transport e), rest)
  | .eof :: rest => (.error (.transport "eof (server closed stdio)"), .eof :: rest)
  | .line l :: rest =>
    match content fromStr text l with
    | .blank => awaitAnswer id rest
    | .unparsable e => (.error (.protocol e), rest)
    | .message msg => if messageId msg ≠ some id then awaitAnswer id rest else (answer msg, rest)

/-- One request/response round-trip; lines with other ids are skipped. -/
def roundtrip (conn : McpConnection L) (method : String) (params : Json) :
    Except McpError Json × McpConnection L :=
  let id := conn.nextId + 1
  let conn := { conn with nextId := id }
  match conn.sendValue (requestMessage id method params) with
  | (.error e, conn) => (.error e, conn)
  | (.ok (), conn) =>
    let (reply, unread) := awaitAnswer fromStr text id conn.unread
    (reply, { conn with unread })

/-! ## Handshake -/

def clientInfo : Json :=
  .object [("name", .string "gooseclaw-knowledge"), ("version", .string CARGO_PKG_VERSION)]

def probeParams : Json :=
  .object [("_meta", .object
    [(MODERN_META_KEY, .string MODERN_PROBE_VERSION),
      ("io.modelcontextprotocol/clientInfo", clientInfo),
      ("io.modelcontextprotocol/clientCapabilities", .object [])])]

def initializeParams : Json :=
  .object [("protocolVersion", .string LEGACY_VERSION), ("capabilities", .object []),
    ("clientInfo", clientInfo)]

def supportedVersions (result : Json) : List String :=
  (((result.get "supportedVersions").bind Json.asArray).map (List.filterMap Json.asStr)).getD []

/-- The era after the probe: any answer but a result and the one modern error marks a legacy server. -/
def eraOf : Except McpError Json → ServerEra
  | .ok result => .dualEraAware (supportedVersions result)
  | .error (.remote code _) =>
    if code = UNSUPPORTED_PROTOCOL_VERSION then .dualEraAware [] else .legacy
  | .error _ => .legacy

/-- A connection before its first message. -/
def fresh (writes : List (Option String)) (unread : List (Reading L)) : McpConnection L :=
  { unread, writes, sent := [], nextId := 0, era := .legacy, negotiatedVersion := "" }

/-- The second half of `connect`, the legacy handshake. The second component is the connection as it is
left, also when it is not returned. -/
def handshake (conn : McpConnection L) : Except McpError (McpConnection L) × McpConnection L :=
  match conn.roundtrip fromStr text "initialize" initializeParams with
  | (.error e, conn) => (.error e, conn)
  | (.ok init, conn) =>
    match init.getStr "protocolVersion" with
    | none => (.error (.protocol "initialize: no protocolVersion in result"), conn)
    | some negotiated =>
      if negotiated ≠ LEGACY_VERSION then
        (.error (.unsupported LEGACY_VERSION [negotiated]), conn)
      else
        let conn := { conn with negotiatedVersion := negotiated }
        match conn.notify "notifications/initialized" (.object []) with
        | (.error e, conn) => (.error e, conn)
        | (.ok (), conn) => (.ok conn, conn)

/-- `connect` over the two streams. -/
def connect (writes : List (Option String)) (unread : List (Reading L)) :
    Except McpError (McpConnection L) × McpConnection L :=
  let (probe, conn) := (fresh writes unread).roundtrip fromStr text "server/discover" probeParams
  handshake fromStr text { conn with era := eraOf probe }

end McpConnection

end GooseClaw
