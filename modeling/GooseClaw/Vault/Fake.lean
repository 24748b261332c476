import GooseClaw.Vault.JsonText
import GooseClaw.Vault.Server
import GooseClaw.Vault.Tools

/-!
# The fake vault

The server the federation is tested against, `spawn_fake` of
`crates/gooseclaw-knowledge/tests/federation.rs`: it answers the era probe and `initialize`, and serves
`vault_read` and `vault_write` from notes that count their versions.

`handle` is one turn of the loop of `spawn_fake` on a message. To a call of the client it does what
`answer` says (`handle_request`), and `answer` keeps the promises of a server one request at a
time.

An object is written in the order of `serde_json`'s map.
-/

namespace GooseClaw

open Found

/-- The notes with their version counters, and the tool calls served. -/
structure FakeVault where
  notes : String → Option (String × UInt64)
  ops : List String

/-- `format!("v{n}")`. -/
def versionText (n : UInt64) : String := "v" ++ n.toNat.repr

theorem versionText_inj {m n : UInt64} (h : versionText m = versionText n) : m = n := by
  have hrepr : m.toNat.repr = n.toNat.repr := (String.append_right_inj _).mp h
  have hdigits : Nat.toDigits 10 m.toNat = Nat.toDigits 10 n.toNat := by
    rw [← Nat.toList_repr, ← Nat.toList_repr, hrepr]
  apply UInt64.toNat_inj.mp
  rw [← Nat.ofDigitChars_ten_toDigits (n := m.toNat), hdigits, Nat.ofDigitChars_ten_toDigits]

/-- A note as the client's journal has it. -/
def vaultNote (entry : String × UInt64) : Note := ⟨entry.1, versionText entry.2⟩

namespace FakeVault

/-! ## Messages -/

def resultMessage (id result : Json) : Json :=
  .object [("id", id), ("jsonrpc", .string "2.0"), ("result", result)]

def errorMessage (id : Json) (code : String) (message : String) : Json :=
  .object [("error", .object [("code", .number code), ("message", .string message)]), ("id", id),
    ("jsonrpc", .string "2.0")]

def discoverResult : Json :=
  .object [("cacheScope", .string "public"), ("capabilities", .object [("tools", .object [])]),
    ("resultType", .string "complete"),
    ("supportedVersions", .array [.string "2025-11-25"]), ("ttlMs", .number "3600000")]

def initializeResult : Json :=
  .object [("capabilities", .object [("tools", .object [])]),
    ("protocolVersion", .string "2025-11-25"),
    ("serverInfo", .object [("name", .string "fake-alfred"), ("version", .string "0.0.0")])]

/-- The one content item of a result. -/
def textItem (text : String) : Json :=
  .object [("text", .string text), ("type", .string "text")]

def textResult (text : String) : Json := .object [("content", .array [textItem text])]

def errorResult (text : String) : Json :=
  .object [("content", .array [textItem text]), ("isError", .bool true)]

/-! ### Bodies -/

/-- The body of a successful `vault_read`. -/
def readBody (path content : String) (n : UInt64) : Json :=
  .object [("content", .string content), ("expectedVersion", .string (versionText n)),
    ("path", .string path)]

/-- The body of a successful `vault_write`. -/
def writtenBody (path : String) (n : UInt64) : Json :=
  .object [("ok", .bool true), ("path", .string path), ("version", .string (versionText n))]

/-- The body of a refused `vault_write`. -/
def conflictBody (path : String) (current : Option String) : Json :=
  .object [("currentVersion", (current.map Json.string).getD .null), ("error", .string "CONFLICT"),
    ("ok", .bool false), ("path", .string path)]

/-! ## The server -/

variable (toString : Json → String)

/-- `vault_read` and `vault_write`. -/
def callTool (v : FakeVault) (id : Json) (name : String) (args : Json) : Json × FakeVault :=
  if name = "vault_read" then
    let path := (args.getStr "path").getD ""
    let v : FakeVault := { v with ops := v.ops ++ ["read " ++ path] }
    match v.notes path with
    | some (content, n) =>
      (resultMessage id (textResult (toString (readBody path content n))), v)
    | none => (resultMessage id (errorResult "Error: not found"), v)
  else if name = "vault_write" then
    let path := (args.getStr "path").getD ""
    let content := (args.getStr "content").getD ""
    let expected := args.getStr "expectedVersion"
    let v : FakeVault := { v with ops := v.ops ++ ["write " ++ path] }
    let current : Option String := (v.notes path).map fun e => versionText e.2
    if current = expected then
      let n := ((v.notes path).map fun e => e.2 + 1).getD 1
      (resultMessage id (textResult (toString (writtenBody path n))),
        { v with notes := fun q => if q = path then some (content, n) else v.notes q })
    else (resultMessage id (errorResult (toString (conflictBody path current))), v)
  else (errorMessage id "-32601" "unknown tool", v)

/-- What the loop does with a message: the response, unless there is none, and the vault. -/
def handle (v : FakeVault) (msg : Json) : Option Json × FakeVault :=
  match msg.get "id" with
  | none => (none, v)
  | some id =>
    let method := (msg.getStr "method").getD ""
    if method = "server/discover" then (some (resultMessage id discoverResult), v)
    else if method = "initialize" then (some (resultMessage id initializeResult), v)
    else if method = "tools/call" then
      let params := (msg.get "params").getD (.object [])
      let (response, v) := v.callTool toString id ((params.getStr "name").getD "")
        ((params.get "arguments").getD (.object []))
      (some response, v)
    else (none, v)

/-- The human edits the vault directly. A note is seeded this way too. -/
def humanEdit (v : FakeVault) (path content : String) : FakeVault :=
  let n := ((v.notes path).map Prod.snd).getD 0
  { v with notes := fun q => if q = path then some (content, n + 1) else v.notes q }

def new : FakeVault := ⟨fun _ => none, []⟩

/-! ## What a call of the client comes to -/

/-- The text and error flag of the answer to a call, and the version it wrote. -/
def answer (v : FakeVault) : ToolCall → (String × Bool) × Option UInt64
  | .vaultRead path =>
    match v.notes path with
    | some (content, n) => ((toString (readBody path content n), false), none)
    | none => (("Error: not found", true), none)
  | .vaultWrite path _ expected =>
    let current : Option String := (v.notes path).map fun e => versionText e.2
    if current = expected then
      let n := ((v.notes path).map fun e => e.2 + 1).getD 1
      ((toString (writtenBody path n), false), some n)
    else ((toString (conflictBody path current), true), none)

/-- The entry of the operations log. -/
def opOf : ToolCall → String
  | .vaultRead path => "read " ++ path
  | .vaultWrite path _ _ => "write " ++ path

/-- The vault behind a call. -/
def after (v : FakeVault) (call : ToolCall) : FakeVault where
  notes := match call, (v.answer toString call).2 with
    | .vaultWrite path content _, some n =>
      fun q => if q = path then some (content, n) else v.notes q
    | _, _ => v.notes
  ops := v.ops ++ [opOf call]

/-- The result message of an answer. -/
def response (id : UInt64) (body : String × Bool) : Json :=
  resultMessage (idNumber id) (if body.2 then errorResult body.1 else textResult body.1)

variable {toString}

theorem callTool_read (v : FakeVault) (id : UInt64) (path : String) :
    v.callTool toString (idNumber id) "vault_read" (ToolCall.vaultRead path).arguments =
      (response id (v.answer toString (.vaultRead path)).1, v.after toString (.vaultRead path)) := by
  have hpath : (ToolCall.vaultRead path).arguments.getStr "path" = some path := rfl
  simp only [callTool, if_true, hpath, Option.getD_some, answer, after]
  cases v.notes path <;> rfl

theorem callTool_write (v : FakeVault) (id : UInt64) (path content : String)
    (expected : Option String) :
    v.callTool toString (idNumber id) "vault_write"
        (ToolCall.vaultWrite path content expected).arguments =
      (response id (v.answer toString (.vaultWrite path content expected)).1,
        v.after toString (.vaultWrite path content expected)) := by
  have hpath : (ToolCall.vaultWrite path content expected).arguments.getStr "path" = some path := rfl
  have hcontent : (ToolCall.vaultWrite path content expected).arguments.getStr "content" =
      some content := rfl
  have hexpected : (ToolCall.vaultWrite path content expected).arguments.getStr "expectedVersion" =
      expected := by cases expected <;> rfl
  have hname : ¬ "vault_write" = "vault_read" := by decide
  simp only [callTool, if_true, if_neg hname, hpath, hcontent, hexpected, Option.getD_some, answer,
    after]
  split <;> rfl

/-- **A call of the client is served as `answer` says.** -/
theorem handle_request (v : FakeVault) (id : UInt64) (call : ToolCall) :
    v.handle toString (requestMessage id "tools/call" call.params) =
      (some (response id (v.answer toString call).1), v.after toString call) := by
  have hcall : v.handle toString (requestMessage id "tools/call" call.params) =
      (some (v.callTool toString (idNumber id) call.name call.arguments).1,
        (v.callTool toString (idNumber id) call.name call.arguments).2) := by
    cases call <;> rfl
  rw [hcall]
  cases call with
  | vaultRead path => rw [ToolCall.name, callTool_read]
  | vaultWrite path content expected => rw [ToolCall.name, callTool_write]

theorem handle_discover (v : FakeVault) (id : UInt64) (params : Json) :
    v.handle toString (requestMessage id "server/discover" params) =
      (some (resultMessage (idNumber id) discoverResult), v) := rfl

theorem handle_initialize (v : FakeVault) (id : UInt64) (params : Json) :
    v.handle toString (requestMessage id "initialize" params) =
      (some (resultMessage (idNumber id) initializeResult), v) := rfl

theorem handle_notification (v : FakeVault) (method : String) (params : Json) :
    v.handle toString (notificationMessage method params) = (none, v) := rfl

/-! ## Responses as the client reads them -/

theorem isInteger_ofNat (id : UInt64) : Json.IsInteger id.toNat.repr :=
  .inl ⟨id.toNat, id.toNat_lt, rfl⟩

/-- The id the client looks for. -/
theorem messageId_resultMessage (id : UInt64) (result : Json) :
    messageId (resultMessage (idNumber id) result) = some id := by
  have hdigits : Json.digits? id.toNat.repr.toList = some id.toNat := by
    have hne : id.toNat.repr.toList.isEmpty = false := by
      rw [Nat.toList_repr]
      exact List.isEmpty_eq_false_iff.mpr Nat.toDigits_ne_nil
    have hall : id.toNat.repr.toList.all Char.isDigit = true := by
      rw [Nat.toList_repr, List.all_eq_true]
      exact fun c hc => Nat.isDigit_of_mem_toDigits (by decide) (by decide) hc
    rw [Json.digits?, hne, hall, Nat.toList_repr]
    exact congrArg some Nat.ofDigitChars_ten_toDigits
  show (Json.number id.toNat.repr).asU64 = some id
  simp only [Json.asU64, hdigits, Option.bind_some, if_pos id.toNat_lt, UInt64.ofNat_toNat]

@[simp] theorem answer_resultMessage (id result : Json) :
    GooseClaw.answer (resultMessage id result) = .ok result := rfl

/-- The client reads the text and the flag the server answered with. -/
theorem toolBody_response (id : UInt64) (body : String × Bool) :
    (GooseClaw.answer (response id body)).map toolBody = .ok body := by
  obtain ⟨text, _ | _⟩ := body <;> rfl

/-! ### They can be written -/

theorem canonical_readBody (path content : String) (n : UInt64) :
    (readBody path content n).Canonical := by
  refine ⟨?_, trivial, trivial, trivial, trivial⟩
  show ["content", "expectedVersion", "path"].Pairwise (· < ·)
  decide

theorem canonical_writtenBody (path : String) (n : UInt64) : (writtenBody path n).Canonical := by
  refine ⟨?_, trivial, trivial, trivial, trivial⟩
  show ["ok", "path", "version"].Pairwise (· < ·)
  decide

theorem canonical_resultMessage (id : UInt64) {result : Json} (h : result.Canonical) :
    (resultMessage (idNumber id) result).Canonical := by
  refine ⟨?_, isInteger_ofNat id, trivial, h, trivial⟩
  show ["id", "jsonrpc", "result"].Pairwise (· < ·)
  decide

theorem canonical_textItem (text : String) : (textItem text).Canonical := by
  refine ⟨?_, trivial, trivial, trivial⟩
  show ["text", "type"].Pairwise (· < ·)
  decide

theorem canonical_response (id : UInt64) (body : String × Bool) :
    (response id body).Canonical := by
  apply canonical_resultMessage
  obtain ⟨text, _ | _⟩ := body
  · refine ⟨List.pairwise_singleton _ _, ⟨canonical_textItem text, trivial⟩, trivial⟩
  · refine ⟨?_, ⟨canonical_textItem text, trivial⟩, trivial, trivial⟩
    show ["content", "isError"].Pairwise (· < ·)
    decide

theorem canonical_discoverResult : discoverResult.Canonical := by
  refine ⟨?_, trivial, ⟨List.pairwise_singleton _ _, ⟨.nil, trivial⟩, trivial⟩, trivial,
    ⟨trivial, trivial⟩, .inl ⟨3600000, by decide, rfl⟩, trivial⟩
  show ["cacheScope", "capabilities", "resultType", "supportedVersions", "ttlMs"].Pairwise (· < ·)
  decide

theorem canonical_initializeResult : initializeResult.Canonical := by
  refine ⟨?_, ⟨List.pairwise_singleton _ _, ⟨.nil, trivial⟩, trivial⟩, trivial,
    ⟨?_, trivial, trivial, trivial⟩, trivial⟩
  · show ["capabilities", "protocolVersion", "serverInfo"].Pairwise (· < ·)
    decide
  · show ["name", "version"].Pairwise (· < ·)
    decide

/-! ## The promises, one request at a time -/

section Promises

variable (serde : JsonSerde) (v : FakeVault) (rid : Nat) (call : ToolCall)

/-- The journal's entry for a call that is served. -/
def servedEntry : Entry :=
  .served rid call ((v.notes call.path).map vaultNote) (.ok (v.answer serde.toString call).1)
    ((v.answer serde.toString call).2.map versionText)

/-- How a call is answered. -/
theorem answer_cases :
    (∃ path content n, call = .vaultRead path ∧ v.notes path = some (content, n) ∧
      v.answer serde.toString call = ((serde.toString (readBody path content n), false), none)) ∨
    (∃ path content expected n, call = .vaultWrite path content expected ∧
      (v.notes path).map (fun e => versionText e.2) = expected ∧
      n = ((v.notes path).map fun e => e.2 + 1).getD 1 ∧
      v.answer serde.toString call = ((serde.toString (writtenBody path n), false), some n)) ∨
    ∃ text, v.answer serde.toString call = ((text, true), none) := by
  cases call with
  | vaultRead path =>
    cases hnote : v.notes path with
    | some entry => exact .inl ⟨path, entry.1, entry.2, rfl, hnote, by simp only [answer, hnote]⟩
    | none => exact .inr (.inr ⟨"Error: not found", by simp only [answer, hnote]⟩)
  | vaultWrite path content expected =>
    by_cases hcurrent : (v.notes path).map (fun e => versionText e.2) = expected
    · exact .inr (.inl ⟨path, content, expected, _, rfl, hcurrent, rfl, by
        simp only [answer, hcurrent, if_true]⟩)
    · refine .inr (.inr ⟨serde.toString (conflictBody path
        ((v.notes path).map fun e => versionText e.2)), ?_⟩)
      simp only [answer, hcurrent, if_false]

theorem versionOf_vaultNote (entry : Option (String × UInt64)) :
    versionOf (entry.map vaultNote) = entry.map fun e => versionText e.2 := by
  cases entry <;> rfl

theorem comparesAndSets_servedEntry : (v.servedEntry serde rid call).comparesAndSets = true := by
  unfold servedEntry
  rcases v.answer_cases serde call with ⟨path, content, n, rfl, -, h⟩ |
    ⟨path, content, expected, n, rfl, hcurrent, -, h⟩ | ⟨text, h⟩
  · rfl
  · rw [h]
    exact decide_eq_true ((versionOf_vaultNote _).trans hcurrent)
  · rw [h]
    cases call <;> rfl

theorem errsUnwritten_servedEntry : (v.servedEntry serde rid call).errsUnwritten = true := by
  unfold servedEntry
  rcases v.answer_cases serde call with ⟨path, content, n, rfl, -, h⟩ |
    ⟨path, content, expected, n, rfl, -, -, h⟩ | ⟨text, h⟩
  · rw [h]
    rfl
  · rw [h]
    rfl
  · rw [h]
    exact decide_eq_true (p := (none : Option String) = none) rfl

variable {serde}

theorem showsNote_servedEntry (lawful : serde.Lawful) :
    (v.servedEntry serde rid call).showsNote serde.fromStr = true := by
  unfold servedEntry
  rcases v.answer_cases serde call with ⟨path, content, n, rfl, hnote, h⟩ |
    ⟨path, content, expected, n, rfl, -, -, h⟩ | ⟨text, h⟩
  · rw [h]
    simp only [Entry.showsNote, lawful.readBack _ (canonical_readBody path content n),
      ToolCall.path, hnote]
    exact decide_eq_true ⟨rfl, rfl⟩
  · rfl
  · rw [h]
    cases call <;> rfl

theorem namesWritten_servedEntry (lawful : serde.Lawful) :
    (v.servedEntry serde rid call).namesWritten serde.fromStr = true := by
  unfold servedEntry
  rcases v.answer_cases serde call with ⟨path, content, n, rfl, hnote, h⟩ |
    ⟨path, content, expected, n, rfl, -, -, h⟩ | ⟨text, h⟩
  · rfl
  · rw [h]
    simp only [Entry.namesWritten, lawful.readBack _ (canonical_writtenBody path n)]
    exact decide_eq_true (.inr rfl)
  · rw [h]
    cases call <;> rfl

end Promises

end FakeVault

end GooseClaw
