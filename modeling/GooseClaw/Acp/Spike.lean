import GooseClaw.Found.Pool
import GooseClaw.Gate.Rule9
import GooseClaw.Session.Store

/-!
# The supervisor and its agent

`crates/gooseclaw/src/bin/acp_spike.rs`: the program that runs goose over ACP and lets the core gate decide
its tool calls. Three kinds of thread work on `SpikeState`: the connection task opens a session and
sends a prompt, and the agent's notifications and permission requests each start a handler. What a thread
does between two locks is one step, and the steps of different threads come in any order. In particular
`record` is two steps, since it clones the session id under one lock and appends to the file without it,
and the exit of the process is a step of its own, before which the other threads may still run.

The ACP crate is outside the repository. A permission request is what the handler reads of it: its text as
`serde_json` prints it, the `Debug` texts of its tool call and of the kinds of its options, and the ids
of these. The agent answers when and what it likes.

**What it does not establish.** The raw log of the wire and what is printed on standard error are left out,
and so is the summary of `main`. That the crate runs handlers side by side is not known here; the pool
allows it, so what holds of its runs holds if the crate runs them one after the other. Nothing says that a
thread ever takes its next step, nor that the agent waits for an answer before it acts.
-/

namespace GooseClaw

open Found

/-! ## Permission requests -/

/-- One of the answers the agent offers. -/
structure PermissionOption where
  optionId : String
  /-- `format!("{:?}", o.kind)`. -/
  kindDebug : String
  deriving DecidableEq

/-- A permission request, as far as the handler looks at it. -/
structure RequestPermissionRequest where
  /-- `serde_json::to_string_pretty(&request)`, or `<unserializable>`. -/
  raw : String
  /-- `format!("{:?}", request.tool_call)`. -/
  toolCallDebug : String
  options : List PermissionOption
  deriving DecidableEq

/-- What the agent is answered: one of its options, or that the request is cancelled. -/
inductive RequestPermissionOutcome
  | selected (optionId : String)
  | cancelled
  deriving DecidableEq

namespace RequestPermissionRequest

/-- The gated action of the request. Its payload is the whole text of the request, so two requests have the
same action only when they read the same. -/
def action (request : RequestPermissionRequest) : ActionRequest :=
  ⟨"acp:tool", "goose requests tool call: " ++ request.toolCallDebug, utf8 request.raw⟩

/-- The option that is selected on an approval: the first whose kind prints with `AllowOnce` in it, or else
the first of all. -/
def option (request : RequestPermissionRequest) : Option PermissionOption :=
  (request.options.find? fun o => decide ("AllowOnce".toList <:+: o.kindDebug.toList)).or
    request.options.head?

/-- What the handler answers, by the decision. Only an approval selects an option, and where there is none to
select the request is cancelled. -/
def outcome (request : RequestPermissionRequest) :
    Except GateError Decision → RequestPermissionOutcome
  | .ok .approved =>
    match request.option with
    | some o => .selected o.optionId
    | none => .cancelled
  | _ => .cancelled

end RequestPermissionRequest

/-! ## The simulated human -/

/-- `signer: SigningKey`: its verifying key, and the signature it puts on a message. -/
structure SigningKey where
  pubkey : Bytes 32
  sign : List UInt8 → Bytes 64

/-- What is relied on of ed25519: the key is one, and it verifies what it signed. -/
structure SigningKey.Lawful (cr : Crypto) (signer : SigningKey) : Prop where
  isKey : cr.isKey signer.pubkey = true
  verifies : ∀ message, cr.verify signer.pubkey message (signer.sign message) = true

/-- The readings of the clock on the way through the gate: the nanoseconds of the nonce, and the seconds
of the expiry, of the gate's check and of the audit record. -/
structure Readings where
  nanos : BitVec 128
  signedAt : UInt64
  checkedAt : UInt64
  auditedAt : UInt64

/-- `to_le_bytes` of a number of so many bytes, the lowest first. -/
def toLeBytes (size n : Nat) : List UInt8 :=
  (List.range size).map fun k => UInt8.ofNat (n / 256 ^ k)

/-- A nonce from the clock and the process id. Two readings of the same nanosecond give the same nonce. -/
def randFreeNonce (cr : Crypto) (pid : UInt32) (nanos : BitVec 128) : Bytes 32 :=
  cr.sha256 (toLeBytes 16 nanos.toNat ++ toLeBytes 4 pid.toNat)

/-- `human_sign`: an approval of the pending action that is good for two minutes. -/
def humanSign (cr : Crypto) (signer : SigningKey) (pid : UInt32) (pending : PendingAction)
    (readings : Readings) : Approval :=
  let nonce := randFreeNonce cr pid readings.nanos
  let expiry := readings.signedAt + 120
  ⟨signer.pubkey, nonce, expiry, signer.sign (Approval.message pending.hash nonce expiry)⟩

/-- What happens under the gate's lock: the action is submitted, signed and decided. No other thread comes
between, so the decision is about the action submitted here. -/
def gatePass (cr : Crypto) (signer : SigningKey) (pid : UInt32) (gate : Rule9Gate)
    (action : ActionRequest) (readings : Readings) : Except GateError Decision × Rule9Gate :=
  let (pending, gate) := gate.submit cr action
  let approval := humanSign cr signer pid pending readings
  gate.decide cr pending approval readings.checkedAt readings.auditedAt

/-! ## State -/

/-- `SpikeState`, less the signer, which never changes. `appends` are the calls on the session store so far,
in the order of their writes, and `exit` is the code `std::process::exit` was called with. -/
structure SpikeState where
  gate : Rule9Gate
  permissionRequests : UInt32
  sessionId : String
  appends : List Append
  exit : Option Nat

namespace SpikeState

/-- The state `main` starts with: one signer on the allowlist, and the name of the spike for a session. -/
def new (signer : SigningKey) : SpikeState :=
  { gate := .new [signer.pubkey], permissionRequests := 0, sessionId := "acp-spike", appends := [],
    exit := none }

/-- The append inside `record`. What becomes of the write is its `fate`; `record` does not look at it. -/
def append (st : SpikeState) (session : String) (kind : SessionEventKind) (detail : String)
    (atUnix : UInt64) (fate : Fate) : SpikeState :=
  { st with appends := st.appends ++ [⟨session, ⟨atUnix, kind, detail⟩, fate⟩] }

end SpikeState

/-! ## Threads -/

/-- `{:?}` of a decision. -/
def Decision.debug : Decision → String
  | .approved => "Approved"
  | .denied => "Denied"

/-- `{:?}` of the gate's error. -/
def GateError.debug : GateError → String
  | .unknownSigner => "UnknownSigner"
  | .badSignature => "BadSignature"
  | .nonceReused => "NonceReused"
  | .expired => "Expired"
  | .actionNotPending => "ActionNotPending"

/-- `format!("{:?}", decision)`. -/
def decisionDebug : Except GateError Decision → String
  | .ok d => "Ok(" ++ d.debug ++ ")"
  | .error e => "Err(" ++ e.debug ++ ")"

/-- The entry of a decision in the session log. -/
def decisionDetail : Except GateError Decision → String
  | .ok .approved => "APPROVED (signed, single-use)"
  | other => "DENIED/ERROR: " ++ decisionDebug other

/-- Where a permission handler stands. In a `record` it holds the session id it cloned, which another thread
may have replaced when the append is made. -/
inductive HandlerPc
  | arrived
  | counted
  | reporting (session : String)
  | reported
  | decided (decision : Except GateError Decision)
  | recording (decision : Except GateError Decision) (session : String)
  | recorded (decision : Except GateError Decision)
  | answered (decision : Except GateError Decision) (outcome : RequestPermissionOutcome)

/-- Where a notification handler stands. All it does is one `record`. -/
inductive NotifierPc
  | arrived
  | recording (session : String)
  | finished

/-- How the prompt ends: with a stop reason, with an error of the agent, or after 180 seconds. -/
inductive PromptEnd
  | complete (stopReasonDebug : String)
  | failed (message : String)
  | timeout

/-- Where the connection task stands. Its three `record`s go on under the session id they cloned; `exiting`
stands between the last of them, or a failed handshake, and the exit of the process. -/
inductive ConnectionPc
  | initializing
  | opening
  | naming (sessionDebug : String)
  | announcing (sessionDebug : String) (session : Option String)
  | prompting (session : Option String)
  | waiting
  | ending (stop : PromptEnd) (session : Option String)
  | exiting (code : Nat)
  | finished

/-- A thread of the program, and where it stands. -/
inductive SpikeThread
  | handler (request : RequestPermissionRequest) (pc : HandlerPc)
  | notifier (updateDebug : String) (pc : NotifierPc)
  | connection (pc : ConnectionPc)

/-- What a thread's next step takes in: what it reads of the clock, what becomes of its write, and what the
agent answers it. -/
inductive SpikeAct
  | count
  | name
  | clone
  | append (atUnix : UInt64) (fate : Fate)
  | decide (readings : Readings)
  | respond
  | initialized (ok : Bool)
  | sessionOpened (sessionDebug : Option String)
  | promptEnded (stop : PromptEnd)
  | exit

/-- The handler of `RequestPermissionRequest`: count, record the request, pass the gate, record the decision,
answer. The decision is recorded before it is answered. -/
def handlerStep (cr : Crypto) (signer : SigningKey) (pid : UInt32) (st : SpikeState)
    (request : RequestPermissionRequest) : HandlerPc → SpikeAct → Option (SpikeState × HandlerPc)
  | .arrived, .count =>
    some ({ st with permissionRequests := st.permissionRequests + 1 }, .counted)
  | .counted, .clone => some (st, .reporting st.sessionId)
  | .reporting session, .append atUnix fate =>
    some (st.append session .toolCallRequested ("session/request_permission RAW: " ++ request.raw)
      atUnix fate, .reported)
  | .reported, .decide readings =>
    let (decision, gate) := gatePass cr signer pid st.gate request.action readings
    some ({ st with gate }, .decided decision)
  | .decided decision, .clone => some (st, .recording decision st.sessionId)
  | .recording decision session, .append atUnix fate =>
    some (st.append session .gateDecision (decisionDetail decision) atUnix fate, .recorded decision)
  | .recorded decision, .respond => some (st, .answered decision (request.outcome decision))
  | _, _ => none

/-- The handler of `SessionNotification`, one `record`. -/
def notifierStep (st : SpikeState) (updateDebug : String) :
    NotifierPc → SpikeAct → Option (SpikeState × NotifierPc)
  | .arrived, .clone => some (st, .recording st.sessionId)
  | .recording session, .append atUnix fate =>
    some (st.append session .toolCallRequested ("session/update: " ++ updateDebug) atUnix fate,
      .finished)
  | _, _ => none

/-- The prompt that is sent. -/
def spikePrompt : String :=
  "Use the shell tool to run exactly this command and nothing else: echo gooseclaw-acp-spike-ok"

/-- The entry of the prompt's end in the session log, and the exit code it brings. -/
def PromptEnd.entry : PromptEnd → SessionEventKind × String × Option Nat
  | .complete stopReasonDebug => (.turnComplete, stopReasonDebug, none)
  | .failed message => (.error, "prompt error: " ++ message, some 2)
  | .timeout => (.error, "prompt timeout", some 2)

/-- The connection task. A failed handshake makes `main` exit with 1. Before any exit there is a point at
which the other threads may still run. -/
def connectionStep (st : SpikeState) : ConnectionPc → SpikeAct → Option (SpikeState × ConnectionPc)
  | .initializing, .initialized true => some (st, .opening)
  | .initializing, .initialized false => some (st, .exiting 1)
  | .opening, .sessionOpened (some sessionDebug) => some (st, .naming sessionDebug)
  | .opening, .sessionOpened none => some (st, .exiting 1)
  | .naming sessionDebug, .name =>
    some ({ st with sessionId := sessionDebug }, .announcing sessionDebug none)
  | .announcing sessionDebug none, .clone => some (st, .announcing sessionDebug (some st.sessionId))
  | .announcing sessionDebug (some session), .append atUnix fate =>
    some (st.append session .sessionCreated sessionDebug atUnix fate, .prompting none)
  | .prompting none, .clone => some (st, .prompting (some st.sessionId))
  | .prompting (some session), .append atUnix fate =>
    some (st.append session .promptSent spikePrompt atUnix fate, .waiting)
  | .waiting, .promptEnded stop => some (st, .ending stop none)
  | .ending stop none, .clone => some (st, .ending stop (some st.sessionId))
  | .ending stop (some session), .append atUnix fate =>
    let (kind, detail, exit) := stop.entry
    some (st.append session kind detail atUnix fate, (exit.map .exiting).getD .finished)
  | .exiting code, .exit => some ({ st with exit := some code }, .finished)
  | _, _ => none

/-- A step of any thread, on the state it shares with the others. -/
def spikeStep (cr : Crypto) (signer : SigningKey) (pid : UInt32) (st : SpikeState) :
    SpikeThread → SpikeAct → Option (SpikeState × SpikeThread)
  | .handler request pc, act =>
    (handlerStep cr signer pid st request pc act).map fun (st, pc) => (st, .handler request pc)
  | .notifier updateDebug pc, act =>
    (notifierStep st updateDebug pc act).map fun (st, pc) => (st, .notifier updateDebug pc)
  | .connection pc, act =>
    (connectionStep st pc act).map fun (st, pc) => (st, .connection pc)

/-- What the agent sends starts a handler. The connection task is there from the start. -/
def SpikeThread.isIncoming : SpikeThread → Bool
  | .handler _ .arrived => true
  | .notifier _ .arrived => true
  | _ => false

/-- The program: threads arrive as the agent sends, and each may take its next step at any time. Nothing
happens once the process has exited. -/
def spike (cr : Crypto) (signer : SigningKey) (pid : UInt32) :
    Machine (Pool SpikeState SpikeThread) (Pool.Event SpikeThread SpikeAct) :=
  Pool.machine (fun st t => st.exit.isNone && t.isIncoming)
    (fun st t act => if st.exit.isNone then spikeStep cr signer pid st t act else none)

/-- `main`, when the connection task starts and nothing has come from the agent. -/
def Spike.opened (signer : SigningKey) : Pool SpikeState SpikeThread :=
  ⟨.new signer, [.connection .initializing]⟩

end GooseClaw
