import GooseClaw.Vault.Connection

/-!
# Tool calls on the wire

`McpConnection::call_tool`, and the halves of a round trip. `roundtrip` writes its request and then reads
until it is answered; between the two the server is at work, so a run of client and server takes them
apart (`request`, `settle`). `roundtrip_eq` and `connect_eq_stages` put them together again.
-/

namespace GooseClaw

namespace Json

/-- `Value::as_bool`. -/
def asBool : Json → Option Bool
  | .bool b => some b
  | _ => none

end Json

/-! ## Calls and their messages -/

namespace ToolCall

def name : ToolCall → String
  | .vaultRead _ => "vault_read"
  | .vaultWrite _ _ _ => "vault_write"

/-- The arguments `read_live` and `try_write` pass. -/
def arguments : ToolCall → Json
  | .vaultRead path => .object [("path", .string path)]
  | .vaultWrite path content expectedVersion => .object [("path", .string path),
      ("content", .string content),
      ("expectedVersion", (expectedVersion.map Json.string).getD .null)]

/-- The parameters of `tools/call`. -/
def params (call : ToolCall) : Json :=
  .object [("name", .string call.name), ("arguments", call.arguments)]

end ToolCall

/-- What `call_tool` reads off a result: the text of the first content item, and the error flag. -/
def toolBody (result : Json) : String × Bool :=
  let isError := ((result.get "isError").bind Json.asBool).getD false
  let text := (((result.get "content").bind Json.asArray).bind List.head?).bind (Json.getStr "text")
  (text.getD "", isError)

namespace McpConnection

variable {L : Type*} (fromStr : String → Except String Json) (text : L → String)

/-- Call a tool. -/
def callTool (conn : McpConnection L) (call : ToolCall) : ToolReply × McpConnection L :=
  let (reply, conn) := conn.roundtrip fromStr text "tools/call" call.params
  (reply.map toolBody, conn)

/-! ## The halves of a round trip -/

/-- The next id is taken and the request is written. -/
def request (conn : McpConnection L) (method : String) (params : Json) :
    Except McpError Unit × McpConnection L :=
  let conn := { conn with nextId := conn.nextId + 1 }
  conn.sendValue (requestMessage conn.nextId method params)

/-- The answer to the last request is awaited. -/
def settle (conn : McpConnection L) : Except McpError Json × McpConnection L :=
  let (reply, unread) := awaitAnswer fromStr text conn.nextId conn.unread
  (reply, { conn with unread })

/-- What `connect` does with the answer to `initialize`. -/
def initialized (conn : McpConnection L) (init : Json) :
    Except McpError (McpConnection L) × McpConnection L :=
  match init.getStr "protocolVersion" with
  | none => (.error (.protocol "initialize: no protocolVersion in result"), conn)
  | some negotiated =>
    if negotiated ≠ LEGACY_VERSION then
      (.error (.unsupported LEGACY_VERSION [negotiated]), conn)
    else
      let conn := { conn with negotiatedVersion := negotiated }
      match conn.notify "notifications/initialized" (.object []) with
      | (.error e, conn) => (.error e, conn)
      | (.ok (), conn) => (.ok conn, conn)

/-- A message moves nothing but the writes. -/
theorem sendValue_nextId (conn : McpConnection L) (v : Json) :
    (conn.sendValue v).2.nextId = conn.nextId := by
  unfold sendValue
  split <;> rfl

variable {fromStr text}

/-- **A round trip is its request and the wait for its answer.** -/
theorem roundtrip_eq (conn : McpConnection L) (method : String) (params : Json) :
    conn.roundtrip fromStr text method params =
      match conn.request method params with
      | (.error e, conn) => (.error e, conn)
      | (.ok (), conn) => conn.settle fromStr text := by
  have hid := sendValue_nextId { conn with nextId := conn.nextId + 1 }
    (requestMessage (conn.nextId + 1) method params)
  unfold roundtrip request settle
  dsimp only at hid ⊢
  cases hsend : ({ conn with nextId := conn.nextId + 1 } : McpConnection L).sendValue
      (requestMessage (conn.nextId + 1) method params) with
  | mk outcome conn' =>
    rw [hsend] at hid
    cases outcome with
    | error e => rfl
    | ok =>
      dsimp only at hid ⊢
      rw [hid]

/-- **So is the handshake**: `initialize`, and what becomes of its answer. -/
theorem handshake_eq (conn : McpConnection L) :
    conn.handshake fromStr text =
      match conn.request "initialize" initializeParams with
      | (.error e, conn) => (.error e, conn)
      | (.ok (), conn) =>
        match conn.settle fromStr text with
        | (.error e, conn) => (.error e, conn)
        | (.ok init, conn) => conn.initialized init := by
  unfold handshake
  rw [roundtrip_eq]
  cases conn.request "initialize" initializeParams with
  | mk outcome conn => cases outcome <;> rfl

/-- `connect` in its stages: the probe, whatever becomes of it, and the handshake. -/
theorem connect_eq_stages (writes : List (Option String)) (unread : List (Reading L)) :
    connect fromStr text writes unread =
      match (fresh writes unread).request "server/discover" probeParams with
      | (.error e, conn) => { conn with era := eraOf (.error e) }.handshake fromStr text
      | (.ok (), conn) =>
        let (probe, conn) := conn.settle fromStr text
        { conn with era := eraOf probe }.handshake fromStr text := by
  unfold connect
  rw [roundtrip_eq]
  cases (fresh writes unread).request "server/discover" probeParams with
  | mk outcome conn => cases outcome <;> rfl

end McpConnection

end GooseClaw
