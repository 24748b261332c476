import GooseClaw.Found.Machine
import GooseClaw.Found.Trace
import GooseClaw.Vault.Phase

/-!
# The federation

The client, its server and the human who edits the vault, as one machine. The client makes one call
at a time (`&mut self`); a call runs between two answers without a pause. A request that is on the wire
stays there until the server takes it up, whatever became of the call that sent it: the connection may
die, or the call time out, before the request is sent, while it is in flight, or while the reply is.
The server takes requests up in any order and replies what it likes; the human edits any note at any
time; the clock only goes forward.

The machine is the same for every process that makes the client's calls. `federation` runs the programs
of the source and `phases` the automaton, and `run_phases` carries every run of the first over to the
second with the world unchanged. The world keeps a journal of everything that happened at the client
and at the server, and the laws of the federation are laws of this journal.
-/

namespace GooseClaw

open Found

/-! ## What happens -/

/-- A note of the vault, with the server's version token for its content. -/
structure Note where
  content : String
  version : String
  deriving DecidableEq

/-- What happened, in the order it happened. Calls and requests are numbered. -/
inductive Entry
  | called (n : Nat) (op : Op) (before : VaultClient)
  | connected (n : Nat) (answer : Except ConnectError ConnId)
  | sent (n rid : Nat) (conn : ConnId) (call : ToolCall)
  | answered (n : Nat) (rid : Option Nat) (call : ToolCall) (reply : ToolReply) (time : Instant)
  | served (rid : Nat) (call : ToolCall) (before : Option Note) (reply : ToolReply)
      (wrote : Option String)
  | returned (n : Nat) (op : Op) (outcome : Outcome) (after : VaultClient) (time : Instant)
  | edited (path : String) (note : Option Note)

/-- What the surroundings do. -/
inductive Event
  /-- The caller calls. -/
  | call (op : Op)
  /-- The factory and the handshake answer. -/
  | connected (answer : Except ConnectError ConnId)
  /-- The awaited request goes on the wire. -/
  | send
  /-- The awaited call is answered, or the connection fails it. -/
  | answer (reply : ToolReply)
  /-- The server takes up a request, replies, and writes a note with a new version or writes
  nothing. -/
  | serve (rid : Nat) (reply : ToolReply) (wrote : Option String)
  /-- The human edits a note. -/
  | edit (path : String) (note : Option Note)
  /-- Time passes. -/
  | tick (d : Nat)

/-! ## The world -/

/-- Everything but the process of the call in progress. `client` is the client between calls; during
a call, the client the call began with. -/
structure World where
  client : VaultClient
  calls : Nat
  time : Instant
  requests : Nat
  inFlight : List (Nat × ToolCall)
  vault : String → Option Note
  journal : List Entry

namespace World

def init (vault : String → Option Note) : World :=
  { client := VaultClient.new, calls := 0, time := 0, requests := 0, inFlight := [], vault,
    journal := [] }

def record (w : World) (e : Entry) : World := { w with journal := w.journal ++ [e] }

/-- A call begins. -/
def began (w : World) (op : Op) : World :=
  { w with calls := w.calls + 1, journal := w.journal ++ [.called (w.calls + 1) op w.client] }

/-- The call in progress ends. -/
def ended (w : World) (op : Op) (outcome : Outcome) (c : VaultClient) : World :=
  { w with client := c, journal := w.journal ++ [.returned w.calls op outcome c w.time] }

/-- A request goes on the wire. -/
def sent (w : World) (conn : ConnId) (call : ToolCall) : World :=
  { w with
    requests := w.requests + 1
    inFlight := w.inFlight ++ [(w.requests, call)]
    journal := w.journal ++ [.sent w.calls w.requests conn call] }

/-- The vault after a call was served. -/
def vaultAfter (w : World) (call : ToolCall) (wrote : Option String) : String → Option Note :=
  match call, wrote with
  | .vaultWrite path content _, some version =>
    fun q => if q = path then some ⟨content, version⟩ else w.vault q
  | _, _ => w.vault

/-- What a served call may have written: a read writes nothing. -/
def wroteBy (call : ToolCall) (wrote : Option String) : Option String :=
  if call.isWrite then wrote else none

/-- The server takes up a request. -/
def served (w : World) (rid : Nat) (call : ToolCall) (reply : ToolReply)
    (wrote : Option String) : World :=
  { w with
    inFlight := w.inFlight.filter (·.1 ≠ rid)
    vault := w.vaultAfter call wrote
    journal := w.journal ++ [.served rid call (w.vault call.path) reply (wroteBy call wrote)] }

def edited (w : World) (path : String) (note : Option Note) : World :=
  { w with
    vault := fun q => if q = path then note else w.vault q
    journal := w.journal ++ [.edited path note] }

end World

/-! ## The machine -/

/-- The call in progress, and the number of its awaited request once that is on the wire. -/
structure Running (Φ : Type) where
  op : Op
  process : Φ
  request : Option Nat

structure Federation (Φ : Type) where
  world : World
  running : Option (Running Φ)

namespace Federation

section Process

variable {Φ : Type} (view : Φ → View Ask Ask.Answer (Outcome × VaultClient) Φ)
  (start : Op → VaultClient → Instant → Φ)

/-- Nothing has happened. -/
def init (vault : String → Option Note) : Federation Φ := ⟨World.init vault, none⟩

/-- The call goes on as the process, or ends with it. -/
def proceed (w : World) (op : Op) (φ : Φ) : Federation Φ :=
  match view φ with
  | .done (outcome, c) => ⟨w.ended op outcome c, none⟩
  | .waiting _ _ => ⟨w, some ⟨op, φ, none⟩⟩

/-- Whether the reply can reach a call whose request is not on the wire: only the failure to send
it. -/
def canArrive (request : Option Nat) : ToolReply → Bool
  | .error e => request.isSome || e.isTransport
  | .ok _ => request.isSome

def step (s : Federation Φ) : Event → Option (Federation Φ)
  | .call op =>
    match s.running with
    | some _ => none
    | none => some (proceed view (s.world.began op) op (start op s.world.client s.world.time))
  | .connected answer =>
    match s.running with
    | none => none
    | some r =>
      match view r.process with
      | .waiting .connect next =>
        some (proceed view (s.world.record (.connected s.world.calls answer)) r.op
          (next (answer, s.world.time)))
      | _ => none
  | .send =>
    match s.running with
    | none => none
    | some r =>
      match view r.process, r.request with
      | .waiting (.callTool conn call) _, none =>
        some ⟨s.world.sent conn call, some { r with request := some s.world.requests }⟩
      | _, _ => none
  | .answer reply =>
    match s.running with
    | none => none
    | some r =>
      match view r.process with
      | .waiting (.callTool _ call) next =>
        if canArrive r.request reply then
          some (proceed view
            (s.world.record (.answered s.world.calls r.request call reply s.world.time)) r.op
            (next (reply, s.world.time)))
        else none
      | _ => none
  | .serve rid reply wrote =>
    match s.world.inFlight.lookup rid with
    | none => none
    | some call => some { s with world := s.world.served rid call reply wrote }
  | .edit path note => some { s with world := s.world.edited path note }
  | .tick d => some { s with world := { s.world with time := s.world.time + d } }

/-- What a step does, event by event. -/
inductive Moves (s : Federation Φ) : Event → Federation Φ → Prop
  | call {op : Op} : s.running = none →
      Moves s (.call op) (proceed view (s.world.began op) op (start op s.world.client s.world.time))
  | connected {r : Running Φ} {answer : Except ConnectError ConnId}
      {next : Ask.Answer .connect → Φ} :
      s.running = some r → view r.process = .waiting .connect next →
      Moves s (.connected answer) (proceed view (s.world.record (.connected s.world.calls answer))
        r.op (next (answer, s.world.time)))
  | send {r : Running Φ} {conn : ConnId} {call : ToolCall}
      {next : Ask.Answer (.callTool conn call) → Φ} :
      s.running = some r → view r.process = .waiting (.callTool conn call) next →
      r.request = none →
      Moves s .send ⟨s.world.sent conn call, some { r with request := some s.world.requests }⟩
  | answer {r : Running Φ} {conn : ConnId} {call : ToolCall} {reply : ToolReply}
      {next : Ask.Answer (.callTool conn call) → Φ} :
      s.running = some r → view r.process = .waiting (.callTool conn call) next →
      canArrive r.request reply = true →
      Moves s (.answer reply) (proceed view
        (s.world.record (.answered s.world.calls r.request call reply s.world.time)) r.op
        (next (reply, s.world.time)))
  | serve {rid : Nat} {call : ToolCall} {reply : ToolReply} {wrote : Option String} :
      s.world.inFlight.lookup rid = some call →
      Moves s (.serve rid reply wrote) { s with world := s.world.served rid call reply wrote }
  | edit {path : String} {note : Option Note} :
      Moves s (.edit path note) { s with world := s.world.edited path note }
  | tick {d : Nat} : Moves s (.tick d) { s with world := { s.world with time := s.world.time + d } }

variable {view start}

/-- **The inversion of a step.** -/
theorem step_moves {s s' : Federation Φ} {e : Event} (h : step view start s e = some s') :
    Moves view start s e s' := by
  cases e with
  | call op =>
    cases hrun : s.running with
    | some r => simp only [step, hrun, reduceCtorEq] at h
    | none =>
      simp only [step, hrun, Option.some.injEq] at h
      exact h ▸ .call hrun
  | connected answer =>
    cases hrun : s.running with
    | none => simp only [step, hrun, reduceCtorEq] at h
    | some r =>
      simp only [step, hrun] at h
      split at h
      · next next hv =>
        exact Option.some.inj h ▸ .connected hrun hv
      · cases h
  | send =>
    cases hrun : s.running with
    | none => simp only [step, hrun, reduceCtorEq] at h
    | some r =>
      simp only [step, hrun] at h
      split at h
      · next conn call next hv hreq =>
        exact Option.some.inj h ▸ .send hrun hv hreq
      · cases h
  | answer reply =>
    cases hrun : s.running with
    | none => simp only [step, hrun, reduceCtorEq] at h
    | some r =>
      simp only [step, hrun] at h
      split at h
      · next conn call next hv =>
        split at h
        · next hcan => exact Option.some.inj h ▸ .answer hrun hv hcan
        · cases h
      · cases h
  | serve rid reply wrote =>
    cases hl : s.world.inFlight.lookup rid with
    | none => simp only [step, hl, reduceCtorEq] at h
    | some call =>
      simp only [step, hl, Option.some.injEq] at h
      exact h ▸ .serve hl
  | edit path note => exact Option.some.inj h ▸ .edit
  | tick d => exact Option.some.inj h ▸ .tick

end Process

variable (fromStr : String → Except String Json)

/-- The federation of the source's client. -/
def machine : Machine (Federation (Program Ask Ask.Answer (Outcome × VaultClient))) Event :=
  ⟨step Program.view (Op.program fromStr)⟩

/-- The federation of the automaton. -/
def phases : Machine (Federation Phase) Event := ⟨step (Phase.view fromStr) Phase.start⟩

/-! ## Programs as phases -/

/-- Two federations in the same world, whose calls in progress do the same. -/
def Same (s : Federation (Program Ask Ask.Answer (Outcome × VaultClient)))
    (t : Federation Phase) : Prop :=
  s.world = t.world ∧ Option.Rel (fun r r' => r.op = r'.op ∧ r.request = r'.request ∧
    Follows (Phase.view fromStr) r'.process r.process) s.running t.running

variable {fromStr}

theorem Same.proceed {w : World} {op : Op}
    {p : Program Ask Ask.Answer (Outcome × VaultClient)} {φ : Phase}
    (h : Follows (Phase.view fromStr) φ p) :
    Same fromStr (proceed Program.view w op p) (proceed (Phase.view fromStr) w op φ) := by
  rcases h.view_eq with ⟨⟨outcome, c⟩, hp, hφ⟩ | ⟨q, next, next', hp, hφ, -⟩
  · simp only [Federation.proceed, hp, hφ]
    exact ⟨rfl, .none⟩
  · simp only [Federation.proceed, hp, hφ]
    exact ⟨rfl, .some ⟨rfl, rfl, h⟩⟩

/-- When the call in progress waits, the automaton's waits for the same. -/
theorem Same.waiting {s : Federation (Program Ask Ask.Answer (Outcome × VaultClient))}
    {t : Federation Phase} {r : Running (Program Ask Ask.Answer (Outcome × VaultClient))} {q : Ask}
    {next : Ask.Answer q → Program Ask Ask.Answer (Outcome × VaultClient)} (h : Same fromStr s t)
    (hrun : s.running = some r) (hp : r.process.view = .waiting q next) :
    ∃ φ next', t.running = some ⟨r.op, φ, r.request⟩ ∧
      Phase.view fromStr φ = .waiting q next' ∧ Follows (Phase.view fromStr) φ r.process ∧
      ∀ a, Follows (Phase.view fromStr) (next' a) (next a) := by
  obtain ⟨-, hrel⟩ := h
  rw [hrun] at hrel
  generalize t.running = running at hrel
  cases hrel with
  | @some _ r' hr =>
    obtain ⟨op, φ, request⟩ := r'
    obtain ⟨hop, hrequest, hfollows⟩ := hr
    rcases hfollows.view_eq with ⟨_, hp', -⟩ | ⟨q', next₁, next₂, hp', hφ, hnext⟩
    · rw [hp] at hp'
      cases hp'
    · rw [hp] at hp'
      cases hp'
      exact ⟨φ, next₁, by rw [hop, hrequest], hφ, hfollows, hnext⟩

/-- Every step of the programs' federation is a step of the automaton's. -/
theorem Same.step {s s' : Federation (Program Ask Ask.Answer (Outcome × VaultClient))}
    {t : Federation Phase} {e : Event} (h : Same fromStr s t)
    (hs : (machine fromStr).step s e = some s') :
    ∃ t', (phases fromStr).step t e = some t' ∧ Same fromStr s' t' := by
  obtain ⟨w, running⟩ := s
  obtain ⟨w', running'⟩ := t
  obtain rfl : w = w' := h.1
  -- a call in progress follows the automaton, which waits for the same
  cases step_moves hs with
  | call hrun =>
    obtain ⟨-, hrel⟩ := h
    obtain rfl : running = none := hrun
    cases hrel
    exact ⟨_, rfl, Same.proceed (Phase.start_follows _ _ _)⟩
  | @connected _ answer next hrun hp =>
    obtain ⟨φ, next', hrun', hφ, -, hnext⟩ := h.waiting hrun hp
    obtain rfl : running' = _ := hrun'
    refine ⟨_, ?_, Same.proceed (hnext (answer, w.time))⟩
    simp only [phases, Federation.step, hφ]
  | @send r conn call next hrun hp hreq =>
    obtain ⟨φ, next', hrun', hφ, hfollows, -⟩ := h.waiting hrun hp
    obtain rfl : running' = _ := hrun'
    refine ⟨⟨w.sent conn call, some ⟨r.op, φ, some w.requests⟩⟩, ?_, rfl, .some ⟨rfl, rfl, hfollows⟩⟩
    simp only [phases, Federation.step, hφ, hreq]
  | @answer _ conn call reply next hrun hp hcan =>
    obtain ⟨φ, next', hrun', hφ, -, hnext⟩ := h.waiting hrun hp
    obtain rfl : running' = _ := hrun'
    refine ⟨_, ?_, Same.proceed (hnext (reply, w.time))⟩
    simp only [phases, Federation.step, hφ, hcan, if_true]
  | @serve rid call reply wrote hl =>
    refine ⟨⟨w.served rid call reply wrote, running'⟩, ?_, rfl, h.2⟩
    simp only [phases, Federation.step, hl]
  | edit => exact ⟨_, rfl, rfl, h.2⟩
  | tick => exact ⟨_, rfl, rfl, h.2⟩

/-- **Every run of the source's client is a run of the automaton in the same world.** -/
theorem run_phases {vault : String → Option Note} {tr : List Event}
    {s : Federation (Program Ask Ask.Answer (Outcome × VaultClient))}
    (h : (machine fromStr).run (init vault) tr = some s) :
    ∃ t, (phases fromStr).run (init vault) tr = some t ∧ s.world = t.world := by
  have start : Same fromStr (init vault) (init vault) := ⟨rfl, .none⟩
  obtain ⟨t, ht, hsame⟩ := (machine fromStr).simulation (N := phases fromStr) Same.step start h
  exact ⟨t, ht, hsame.1⟩

end Federation

end GooseClaw
