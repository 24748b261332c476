import Mathlib.Data.List.Basic

/-!
# What crosses the wire

The data the vault client of `crates/gooseclaw-knowledge` exchanges with its server: tool calls, the
errors of `mcp.rs`, and the JSON bodies of the replies. `serde_json` is outside the repository, so its
parser is a parameter wherever a body is read; `Json` is its value type, as far as bodies are looked
into.
-/

namespace GooseClaw

/-! ## JSON -/

/-- `serde_json::Value`. A number is kept as its text. -/
inductive Json
  | null
  | bool (b : Bool)
  | number (text : String)
  | string (s : String)
  | array (items : List Json)
  | object (fields : List (String × Json))

namespace Json

/-- `Value::get` with a string index. -/
def get (key : String) : Json → Option Json
  | .object fields => fields.lookup key
  | _ => none

/-- `Value::as_str`. -/
def asStr : Json → Option String
  | .string s => some s
  | _ => none

/-- `Value::as_array`. -/
def asArray : Json → Option (List Json)
  | .array items => some items
  | _ => none

/-- The value of a text of decimal digits. -/
def digits? (text : List Char) : Option Nat :=
  if text.isEmpty || !text.all Char.isDigit then none
  else some (text.foldl (fun n c => 10 * n + (c.toNat - '0'.toNat)) 0)

/-- `Value::as_u64`: an integer in range, written without a sign, a fraction or an exponent. -/
def asU64 : Json → Option UInt64
  | .number text => (digits? text.toList).bind fun n =>
    if n < UInt64.size then some (UInt64.ofNat n) else none
  | _ => none

/-- `Value::as_i64`: as `as_u64`, with a sign and in its range. The text `-0` is a float. -/
def asI64 : Json → Option Int
  | .number text =>
    match text.toList with
    | '-' :: rest => (digits? rest).bind fun n => if 0 < n ∧ n ≤ UInt64.size / 2 then some (-n) else none
    | rest => (digits? rest).bind fun n => if n < UInt64.size / 2 then some n else none
  | _ => none

/-- A string field of an object. -/
def getStr (key : String) (body : Json) : Option String := (body.get key).bind asStr

end Json

/-! ## Errors of the connection -/

/-- `McpError`. -/
inductive McpError
  | transport (message : String)
  | protocol (message : String)
  | timeout
  | remote (code : Int) (message : String)
  | unsupported (requested : String) (supported : List String)
  deriving DecidableEq

/-- `{:?}` of a string, for text without unprintable characters. -/
def debugString (s : String) : String :=
  "\"" ++ String.join (s.toList.map fun c =>
    if c = '"' then "\\\"" else if c = '\\' then "\\\\" else if c = '\n' then "\\n"
    else if c = '\r' then "\\r" else if c = '\t' then "\\t" else c.toString) ++ "\""

/-- `impl Display for McpError`. -/
def McpError.display : McpError → String
  | .transport e => "transport: " ++ e
  | .protocol e => "protocol: " ++ e
  | .timeout => "timeout"
  | .remote code message => "remote error " ++ toString code ++ ": " ++ message
  | .unsupported requested supported =>
    "server does not serve " ++ requested ++ " (supported: [" ++
      ", ".intercalate (supported.map debugString) ++ "])"

/-- The connection died or fell silent: a send error, end of stream, or a timeout. -/
def McpError.isTransport : McpError → Bool
  | .transport _ => true
  | .timeout => true
  | _ => false

/-- Why no session came up: the factory failed, or `McpConnection::connect` did. -/
inductive ConnectError
  | factory (message : String)
  | handshake (e : McpError)
  deriving DecidableEq

/-! ## Calls -/

/-- A session, named by the order in which the factory and the handshake made it. -/
abbrev ConnId := Nat

/-- The tool calls the client makes, with their arguments. -/
inductive ToolCall
  | vaultRead (path : String)
  | vaultWrite (path content : String) (expectedVersion : Option String)
  deriving DecidableEq

def ToolCall.path : ToolCall → String
  | .vaultRead path => path
  | .vaultWrite path _ _ => path

def ToolCall.isWrite : ToolCall → Bool
  | .vaultRead _ => false
  | .vaultWrite _ _ _ => true

/-- What `call_tool` returns: the text body and the error flag, or the connection's error. -/
abbrev ToolReply := Except McpError (String × Bool)

end GooseClaw
