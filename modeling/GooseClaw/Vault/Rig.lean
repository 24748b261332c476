import GooseClaw.Vault.Fake

/-!
# The client against the fake vault

`Rig` of `crates/gooseclaw-knowledge/tests/federation.rs`, with the client of `client.rs` on one side of
its streams and the tasks of `spawn_fake` on the other. A connection is a stream of lines each way: what
the client wrote and the server has not taken up, and what the server answered and the client has not
read. Each tool call and each stage of the handshake is a request that is written (`dial`, `send`, and
in between) and a wait that ends with an answer, the deadline or the end of the stream (`settle`).

Between any two of these the server may take up a line of any connection whose task runs, late or not
at all, the human may edit the vault, and Alfred may go down and come back. A task whose client has gone
away may still take up what was written. The step function is partial: it refuses an event the program
could not be met with, such as an answer when nothing is awaited. `step_moves` inverts it once, and no
later module opens it again.

**What it does not establish.** Lines arrive whole; what a deadline in the middle of a line does to a
connection is a matter of `Vault.Framing`, and what the end of the stream there does is one of
`Vault.Loss`. A turn of the server is one step, so a task that is aborted between applying a write and
answering it is no run of the rig. The clock does not drive the deadlines: a wait may run out at any
moment, as it may over a server that is slow enough.
-/

namespace GooseClaw

open Found

/-! ## Connections -/

/-- One connection, seen from both sides: the client's end with what it has written and not read, how many
of the written lines the server has taken up, and whether the server's task still runs. The lines behind
`taken` are on the wire, and stay there when the client drops the connection. -/
structure Link where
  conn : McpConnection Json
  taken : Nat
  alive : Bool

namespace Link

/-- A request is written, under the next id of the connection. A write to a task that was aborted fails,
since its end of the stream is gone; the id is spent all the same. -/
def request (link : Link) (method : String) (params : Json) : Except McpError Unit × Link :=
  let writes := if link.alive then [] else [some "broken pipe"]
  let (outcome, conn) := { link.conn with writes }.request method params
  (outcome, { link with conn })

/-- The wait for the last request ends. With no deadline the client reads on until it is answered, or until
there is nothing to read and time is up; a deadline of `n` cuts the wait off behind `n` lines, whether or
not the answer lies behind them. What was not read stays in the stream for the next wait. -/
def settle (serde : JsonSerde) (link : Link) (deadline : Option Nat) : Except McpError Json × Link :=
  let unread := match deadline with
    | some n => link.conn.unread.take n ++ .deadline :: link.conn.unread.drop n
    | none => link.conn.unread
  let (reply, conn) := { link.conn with unread }.settle serde.fromStr serde.toString
  (reply, { link with conn })

/-- What `connect` does with the answer to `initialize`: the version is checked, and
`notifications/initialized` is written, which fails like any write when the task is gone. -/
def initialized (link : Link) (init : Json) : Except McpError Unit × Link :=
  let writes := if link.alive then [] else [some "broken pipe"]
  let (outcome, conn) := { link.conn with writes }.initialized init
  (outcome.map fun _ => (), { link with conn })

/-- The server's task takes up a line and answers it on the same stream, or answers nothing, as it does for
a notification. -/
def took (link : Link) (response : Option Json) : Link :=
  { link with
    taken := link.taken + 1
    conn := { link.conn with unread := link.conn.unread ++ response.toList.map .line } }

/-- The server's task is aborted. The client still reads what the task had answered, and behind it the end
of the stream. Nothing happens to a task that is gone already. -/
def kill (link : Link) : Link :=
  if link.alive then
    { link with alive := false, conn := { link.conn with unread := link.conn.unread ++ [.eof] } }
  else link

/-- A new connection, whose probe was written. The factory of the rig has spawned its task. -/
def dialled : Link where
  conn := ((McpConnection.fresh [] []).request "server/discover" McpConnection.probeParams).2
  taken := 0
  alive := true

/-- The probe is over, by an answer or without one, and the era is what it told; `initialize` is next. A
probe that failed leaves the handshake to go on. -/
def probed (link : Link) (probe : Except McpError Json) : Except McpError Unit × Link :=
  { link with conn := { link.conn with era := McpConnection.eraOf probe } }.request "initialize"
    McpConnection.initializeParams

end Link

/-! ## The machine -/

/-- What the client waits for on a connection: its era, its handshake, or the answer to a tool call. -/
inductive Stage
  | probe
  | handshake
  | tool
  deriving DecidableEq

/-- The call in progress: the program that is left of it, and the connection it waits on, once the request
it waits for was written. -/
structure RigCall where
  op : Op
  process : Program Ask Ask.Answer (Outcome × VaultClient)
  waiting : Option (ConnId × Stage)

/-- The rig and the client. Connections are kept when they are dropped, since a task may still take up what
was written on one. `client` is the client between two calls, and during a call the client it began with.
`returns` is what the calls have returned so far, in order. -/
structure Rig where
  vault : FakeVault
  down : Bool
  links : List Link
  client : VaultClient
  time : Instant
  running : Option RigCall
  returns : List (Op × Outcome)

/-- What happens at the rig. The caller and the client come first, then the server, then the test. -/
inductive RigEvent
  /-- The caller calls. -/
  | call (op : Op)
  /-- The factory answers, and the probe is written. -/
  | dial
  /-- The awaited tool call is written. -/
  | send
  /-- The client's wait ends. -/
  | settle (deadline : Option Nat)
  /-- The server takes up a line. -/
  | serve (conn : ConnId)
  | humanEdit (path content : String)
  | killAll
  | restart
  | tick (d : Nat)

namespace Rig

/-- `Rig::new`, with an empty vault. A test seeds a note by an edit. -/
def new : Rig where
  vault := .new
  down := false
  links := []
  client := .new
  time := 0
  running := none
  returns := []

/-- The call goes on with what is left of its program, or has ended: then the client is the one the program
returned, and the result is the caller's. -/
def proceed (s : Rig) (op : Op) (p : Program Ask Ask.Answer (Outcome × VaultClient)) : Rig :=
  match p.view with
  | .done (outcome, c) =>
    { s with client := c, running := none, returns := s.returns ++ [(op, outcome)] }
  | .waiting _ _ => { s with running := some ⟨op, p, none⟩ }

def setLink (s : Rig) (k : ConnId) (link : Link) : Rig := { s with links := s.links.set k link }

/-- The call waits on the connection, for the stage. -/
def await (s : Rig) (r : RigCall) (k : ConnId) (stage : Stage) : Rig :=
  { s with running := some { r with waiting := some (k, stage) } }

variable (serde : JsonSerde)

/-- The factory of the rig: an error while Alfred is down, and a new connection otherwise. -/
def dial (s : Rig) (r : RigCall)
    (next : Ask.Answer .connect → Program Ask Ask.Answer (Outcome × VaultClient)) : Rig :=
  if s.down then s.proceed r.op (next (.error (.factory "alfred is down"), s.time))
  else { s with links := s.links ++ [Link.dialled] }.await r s.links.length .probe

/-- A request was written, and is waited for; or it could not be written, and the call goes on with the
error at once. -/
def written (s : Rig) (r : RigCall) (k : ConnId) (stage : Stage)
    (failed : McpError → Program Ask Ask.Answer (Outcome × VaultClient)) :
    Except McpError Unit × Link → Rig
  | (.error e, link) => (s.setLink k link).proceed r.op (failed e)
  | (.ok (), link) => (s.setLink k link).await r k stage

/-- The answer to `initialize` is looked at. Any failure is one of the handshake, and the connection is not
handed to the client. -/
def finish (s : Rig) (r : RigCall) (k : ConnId) (link : Link)
    (next : Ask.Answer .connect → Program Ask Ask.Answer (Outcome × VaultClient)) :
    Except McpError Json → Rig
  | .error e => (s.setLink k link).proceed r.op (next (.error (.handshake e), s.time))
  | .ok init =>
    match link.initialized init with
    | (.error e, link) => (s.setLink k link).proceed r.op (next (.error (.handshake e), s.time))
    | (.ok (), link) => (s.setLink k link).proceed r.op (next (.ok k, s.time))

/-- What a wait that is over leads to: the next stage of the handshake, or the call with its answer. `none`
when the stage is not the one the call is at. -/
def settled (s : Rig) (r : RigCall) (k : ConnId) (stage : Stage) (reply : Except McpError Json)
    (link : Link) : Option Rig :=
  match stage, r.process.view with
  | .probe, .waiting .connect next =>
    some (s.written r k .handshake (fun e => next (.error (.handshake e), s.time))
      (link.probed reply))
  | .handshake, .waiting .connect next => some (s.finish r k link next reply)
  | .tool, .waiting (.callTool _ _) next =>
    some ((s.setLink k link).proceed r.op (next (reply.map toolBody, s.time)))
  | _, _ => none

/-- A step of the rig, by the event. -/
def step (s : Rig) : RigEvent → Option Rig
  | .call op =>
    match s.running with
    | some _ => none
    | none => some (s.proceed op (op.program serde.fromStr s.client s.time))
  | .dial => do
    let r ← s.running
    match r.waiting, r.process.view with
    | none, .waiting .connect next => some (s.dial r next)
    | _, _ => none
  | .send => do
    let r ← s.running
    match r.waiting, r.process.view with
    | none, .waiting (.callTool k call) next =>
      let link ← s.links[k]?
      some (s.written r k .tool (fun e => next (.error e, s.time))
        (link.request "tools/call" call.params))
    | _, _ => none
  | .settle deadline => do
    let r ← s.running
    let (k, stage) ← r.waiting
    let link ← s.links[k]?
    let (reply, link) := link.settle serde deadline
    s.settled r k stage reply link
  | .serve k => do
    let link ← s.links[k]?
    if link.alive then
      let msg ← link.conn.sent[link.taken]?
      let (response, vault) := s.vault.handle serde.toString msg
      some { s.setLink k (link.took response) with vault }
    else none
  | .humanEdit path content => some { s with vault := s.vault.humanEdit path content }
  | .killAll => some { s with down := true, links := s.links.map Link.kill }
  | .restart => some { s with down := false }
  | .tick d => some { s with time := s.time + d }

/-- The rig as a machine. Its runs are the interleavings of client, server and test. -/
def machine : Machine Rig RigEvent := ⟨step serde⟩

/-- What a step does, event by event. -/
inductive Moves (s : Rig) : RigEvent → Rig → Prop
  | call {op : Op} : s.running = none →
      Moves s (.call op) (s.proceed op (op.program serde.fromStr s.client s.time))
  | dial {r : RigCall} {next : Ask.Answer .connect → Program Ask Ask.Answer (Outcome × VaultClient)} :
      s.running = some r → r.waiting = none → r.process.view = .waiting .connect next →
      Moves s .dial (s.dial r next)
  | send {r : RigCall} {k : ConnId} {call : ToolCall} {link : Link}
      {next : Ask.Answer (.callTool k call) → Program Ask Ask.Answer (Outcome × VaultClient)} :
      s.running = some r → r.waiting = none → r.process.view = .waiting (.callTool k call) next →
      s.links[k]? = some link →
      Moves s .send (s.written r k .tool (fun e => next (.error e, s.time))
        (link.request "tools/call" call.params))
  | probed {r : RigCall} {k : ConnId} {link : Link} {deadline : Option Nat}
      {next : Ask.Answer .connect → Program Ask Ask.Answer (Outcome × VaultClient)} :
      s.running = some r → r.waiting = some (k, .probe) → r.process.view = .waiting .connect next →
      s.links[k]? = some link →
      Moves s (.settle deadline) (s.written r k .handshake
        (fun e => next (.error (.handshake e), s.time))
        ((link.settle serde deadline).2.probed (link.settle serde deadline).1))
  | initialized {r : RigCall} {k : ConnId} {link : Link} {deadline : Option Nat}
      {next : Ask.Answer .connect → Program Ask Ask.Answer (Outcome × VaultClient)} :
      s.running = some r → r.waiting = some (k, .handshake) →
      r.process.view = .waiting .connect next → s.links[k]? = some link →
      Moves s (.settle deadline)
        (s.finish r k (link.settle serde deadline).2 next (link.settle serde deadline).1)
  | answered {r : RigCall} {k k' : ConnId} {call : ToolCall} {link : Link} {deadline : Option Nat}
      {next : Ask.Answer (.callTool k' call) → Program Ask Ask.Answer (Outcome × VaultClient)} :
      s.running = some r → r.waiting = some (k, .tool) →
      r.process.view = .waiting (.callTool k' call) next → s.links[k]? = some link →
      Moves s (.settle deadline) ((s.setLink k (link.settle serde deadline).2).proceed r.op
        (next ((link.settle serde deadline).1.map toolBody, s.time)))
  | serve {k : ConnId} {link : Link} {msg : Json} :
      s.links[k]? = some link → link.alive = true → link.conn.sent[link.taken]? = some msg →
      Moves s (.serve k) { s.setLink k (link.took (s.vault.handle serde.toString msg).1) with
        vault := (s.vault.handle serde.toString msg).2 }
  | humanEdit {path content : String} :
      Moves s (.humanEdit path content) { s with vault := s.vault.humanEdit path content }
  | killAll : Moves s .killAll { s with down := true, links := s.links.map Link.kill }
  | restart : Moves s .restart { s with down := false }
  | tick {d : Nat} : Moves s (.tick d) { s with time := s.time + d }

variable {serde}

theorem settled_moves {s s' : Rig} {r : RigCall} {k : ConnId} {stage : Stage} {link : Link}
    {deadline : Option Nat} (hrun : s.running = some r) (hwait : r.waiting = some (k, stage))
    (hlink : s.links[k]? = some link)
    (h : s.settled r k stage (link.settle serde deadline).1 (link.settle serde deadline).2 =
      some s') : Moves serde s (.settle deadline) s' := by
  unfold settled at h
  split at h
  · next next hv => exact Option.some.inj h ▸ .probed hrun hwait hv hlink
  · next next hv => exact Option.some.inj h ▸ .initialized hrun hwait hv hlink
  · next next hv => exact Option.some.inj h ▸ .answered hrun hwait hv hlink
  · cases h

/-- **The inversion of a step.** -/
theorem step_moves {s s' : Rig} {e : RigEvent} (h : s.step serde e = some s') :
    Moves serde s e s' := by
  cases e with
  | call op =>
    cases hrun : s.running with
    | some r => simp only [step, hrun, reduceCtorEq] at h
    | none =>
      simp only [step, hrun, Option.some.injEq] at h
      exact h ▸ .call hrun
  | dial =>
    obtain ⟨r, hrun, h⟩ := Option.bind_eq_some_iff.mp h
    split at h
    · next next hwait hv => exact Option.some.inj h ▸ .dial hrun hwait hv
    · cases h
  | send =>
    obtain ⟨r, hrun, h⟩ := Option.bind_eq_some_iff.mp h
    split at h
    · next k call next hwait hv =>
      obtain ⟨link, hlink, h⟩ := Option.bind_eq_some_iff.mp h
      exact Option.some.inj h ▸ .send hrun hwait hv hlink
    · cases h
  | settle deadline =>
    obtain ⟨r, hrun, h⟩ := Option.bind_eq_some_iff.mp h
    obtain ⟨⟨k, stage⟩, hwait, h⟩ := Option.bind_eq_some_iff.mp h
    obtain ⟨link, hlink, h⟩ := Option.bind_eq_some_iff.mp h
    exact settled_moves hrun hwait hlink h
  | serve k =>
    obtain ⟨link, hlink, h⟩ := Option.bind_eq_some_iff.mp h
    split at h
    · next halive =>
      obtain ⟨msg, hmsg, h⟩ := Option.bind_eq_some_iff.mp h
      exact Option.some.inj h ▸ .serve hlink halive hmsg
    · cases h
  | humanEdit path content => exact Option.some.inj h ▸ .humanEdit
  | killAll => exact Option.some.inj h ▸ .killAll
  | restart => exact Option.some.inj h ▸ .restart
  | tick d => exact Option.some.inj h ▸ .tick

end Rig

end GooseClaw
