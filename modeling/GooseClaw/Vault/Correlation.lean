import GooseClaw.Found.Trace
import GooseClaw.Vault.Waiting

/-!
# Requests and responses

Both ends of a connection number their own requests, and a line with an id may be the response to a
request of the client's, or a request of the server's. `roundtrip` compares ids and looks at nothing
else, so a request of the server's that carries the number of the client's open request is taken for
its answer.

A line has its `Origin` here: what the server sent it as. The client reads only the text, which fits
the origin. `responses_correlated_iff` says of whole runs what the client makes of this.
-/

namespace GooseClaw

open Found

/-! ## Lines and what they were sent as -/

/-- What the server sent a line as. -/
inductive Origin
  /-- The response to the client's request of this number, the first being number 1. -/
  | response (request : Nat)
  /-- A request of the server's. -/
  | request
  | notification
  | blank
  /-- Anything else. -/
  | other
  deriving DecidableEq

/-- The id of the client's `n`th request, which is a `u64`. -/
def requestId (n : Nat) : UInt64 := UInt64.ofNat n

/-- What JSON-RPC says of a line's text: a response carries its request's id and no method, a request
has both a method and an id, and a notification has a method and no id. -/
def Origin.Fits (fromStr : String → Except String Json) (text : String) : Origin → Prop
  | .response n => ∃ msg, McpConnection.content fromStr id text = .message msg ∧
    messageId msg = some (requestId n) ∧ msg.get "method" = none
  | .request => ∃ msg, McpConnection.content fromStr id text = .message msg ∧
    (msg.getStr "method").isSome ∧ (msg.get "id").isSome
  | .notification => ∃ msg, McpConnection.content fromStr id text = .message msg ∧
    (msg.getStr "method").isSome ∧ msg.get "id" = none
  | .blank => McpConnection.content fromStr id text = .blank
  | .other => True

/-- A line on its way to the client. -/
structure ServerLine (fromStr : String → Except String Json) where
  text : String
  origin : Origin
  fits : origin.Fits fromStr text

/-- The line carries the id of request `n`, and is not the response to it. -/
def ServerLine.Crosses {fromStr : String → Except String Json} (n : Nat)
    (l : ServerLine fromStr) : Prop :=
  l.origin ≠ .response n ∧ ∃ msg, McpConnection.content fromStr ServerLine.text l = .message msg ∧
    messageId msg = some (requestId n)

namespace McpConnection

variable {fromStr : String → Except String Json}

variable (fromStr) in
/-- The connection as a service of round trips: the method and the parameters of each. -/
def service : Service (McpConnection (ServerLine fromStr)) (String × Json) (Except McpError Json) where
  handle conn c := conn.roundtrip fromStr ServerLine.text c.1 c.2

/-! ## One round trip -/

/-- If the reply is an answer, it was read from the last line the call read, and the server sent that
line as the response to request `n`. -/
def Correlated (n : Nat) (before : McpConnection (ServerLine fromStr))
    (reply : Except McpError Json × McpConnection (ServerLine fromStr)) : Prop :=
  IsAnswer reply.1 → ∃ front l msg, before.unread = front ++ .line l :: reply.2.unread ∧
    l.origin = .response n ∧ content fromStr ServerLine.text l = .message msg ∧ reply.1 = answer msg

/-- A line that parses, or is blank, and is not the response to request `n`. -/
def Quiet (n : Nat) (r : Reading (ServerLine fromStr)) : Prop :=
  ∃ l, r = .line l ∧ l.origin ≠ .response n ∧
    ∀ e, content fromStr ServerLine.text l ≠ .unparsable e

/-- No line crosses request `n` before its response, an unparsable line, the deadline or the end of the
stream. -/
def Uncrossed (n : Nat) (stream : List (Reading (ServerLine fromStr))) : Prop :=
  ∀ front l rest, stream = front ++ .line l :: rest → (∀ r ∈ front, Quiet n r) → ¬ l.Crosses n

/-- A line that is passed over is no response to the request, and parses. -/
theorem PassedOver.quiet {n : Nat} {r : Reading (ServerLine fromStr)}
    (h : PassedOver fromStr ServerLine.text (requestId n) r) : Quiet n r := by
  obtain ⟨l, rfl, hover⟩ := h
  refine ⟨l, rfl, ?_, ?_⟩
  · intro horigin
    have hfits := l.fits
    rw [horigin] at hfits
    obtain ⟨msg, hmsg, hid, -⟩ := hfits
    rcases hover with hblank | ⟨msg', hmsg', hid'⟩
    · cases hblank.symm.trans hmsg
    · obtain rfl : msg = msg' := LineContent.message.inj (hmsg.symm.trans hmsg')
      exact hid' hid
  · intro e hunparsable
    rcases hover with hblank | ⟨msg, hmsg, -⟩
    · cases hblank.symm.trans hunparsable
    · cases hmsg.symm.trans hunparsable

theorem PassedOver.not_crosses {n : Nat} {l : ServerLine fromStr}
    (h : PassedOver fromStr ServerLine.text (requestId n) (.line l)) : ¬ l.Crosses n := by
  rintro ⟨-, msg, hmsg, hid⟩
  exact h.messageId_ne hmsg hid

/-- Where a wait breaks off there is no line to go on behind. -/
theorem Breaks.not_quiet {n : Nat} {r : Reading (ServerLine fromStr)}
    {stream rest : List (Reading (ServerLine fromStr))} {e : McpError}
    (h : Breaks fromStr ServerLine.text (r :: stream) e rest) : ¬ Quiet n r := by
  rintro ⟨l, rfl, -, hparses⟩
  cases h with
  | unparsable hline => exact hparses _ hline

/-- A line at which a wait breaks off is no message. -/
theorem Breaks.not_crosses {n : Nat} {l : ServerLine fromStr}
    {stream rest : List (Reading (ServerLine fromStr))} {e : McpError}
    (h : Breaks fromStr ServerLine.text (.line l :: stream) e rest) : ¬ l.Crosses n := by
  rintro ⟨-, msg, hmsg, -⟩
  cases h with
  | unparsable hline => cases hline.symm.trans hmsg

/-- Nothing crosses a request whose wait breaks off. -/
theorem Broken.uncrossed {n : Nat} {stream rest : List (Reading (ServerLine fromStr))} {e : McpError}
    (h : Broken fromStr ServerLine.text (requestId n) stream e rest) : Uncrossed n stream := by
  obtain ⟨front, tail, rfl, hfront, hbreaks⟩ := h
  intro front' l rest' hsplit hquiet hcrosses
  rcases List.append_eq_append_iff.mp hsplit with ⟨w, rfl, hw⟩ | ⟨w, rfl, hw⟩
  · -- the line stands behind what was passed over
    cases w with
    | nil =>
      rw [List.nil_append] at hw
      subst hw
      exact hbreaks.not_crosses hcrosses
    | cons r w =>
      subst hw
      exact hbreaks.not_quiet (hquiet r (List.mem_append_right _ List.mem_cons_self))
  · cases w with
    | nil =>
      rw [List.nil_append] at hw
      subst hw
      exact hbreaks.not_crosses hcrosses
    | cons r w =>
      obtain ⟨rfl, -⟩ := List.cons.inj hw
      exact (hfront _ (List.mem_append_right _ List.mem_cons_self)).not_crosses hcrosses

/-- A request is uncrossed when the first message with its id is the response to it, and only then. -/
theorem FirstAnswer.uncrossed_iff {n : Nat} {stream rest : List (Reading (ServerLine fromStr))}
    {l : ServerLine fromStr} {msg : Json}
    (h : FirstAnswer fromStr ServerLine.text (requestId n) stream l msg rest) :
    Uncrossed n stream ↔ l.origin = .response n := by
  obtain ⟨front, hstream, hfront, hmsg, hid⟩ := h
  constructor
  · intro hclear
    by_contra horigin
    exact hclear front l rest hstream (fun r hr => (hfront r hr).quiet) ⟨horigin, msg, hmsg, hid⟩
  · intro horigin front' l' rest' hsplit hquiet hcrosses
    rcases append_cons_compare (hstream.symm.trans hsplit) with ⟨-, heq, -⟩ | ⟨w, rfl⟩ | ⟨w, rfl⟩
    · cases heq
      exact hcrosses.1 horigin
    · obtain ⟨l'', hl, hne, -⟩ := hquiet (.line l) (List.mem_append_right _ List.mem_cons_self)
      cases hl
      exact hne horigin
    · exact (hfront _ (List.mem_append_right _ List.mem_cons_self)).not_crosses hcrosses

/-- **One round trip is correlated exactly when nothing crosses its request**, or the request was not
written. -/
theorem correlated_iff {n : Nat} {conn : McpConnection (ServerLine fromStr)}
    (hid : conn.nextId + 1 = requestId n) (method : String) (params : Json) :
    Correlated n conn (conn.roundtrip fromStr ServerLine.text method params) ↔
      ¬ conn.Writable ∨ Uncrossed n conn.unread := by
  by_cases hwrite : conn.Writable
  · rw [roundtrip_writable hwrite, hid]
    rcases wait_cases fromStr ServerLine.text (requestId n) conn.unread with
      ⟨l, msg, rest, hfirst⟩ | ⟨e, rest, hbroken⟩
    · have hsplit := hfirst
      obtain ⟨front, hstream, -, hmsg, -⟩ := hsplit
      rw [hfirst.uncrossed_iff, awaitAnswer_first hfirst]
      constructor
      · intro h
        obtain ⟨front', l', msg', hstream', horigin, -⟩ := h (isAnswer_answer msg)
        have hsame := List.append_inj_right' (hstream.symm.trans hstream') rfl
        cases hsame
        exact .inr horigin
      · rintro (hnot | horigin)
        · exact absurd hwrite hnot
        · exact fun _ => ⟨front, l, msg, hstream, horigin, hmsg, rfl⟩
    · refine iff_of_true ?_ (.inr hbroken.uncrossed)
      rw [awaitAnswer_broken hbroken]
      obtain ⟨_, _, _, _, hbreaks⟩ := hbroken
      exact fun hanswer => absurd hanswer hbreaks.not_isAnswer
  · obtain ⟨e, he⟩ := @roundtrip_not_writable _ fromStr ServerLine.text conn hwrite method params
    refine iff_of_true ?_ (.inl hwrite)
    rw [he]
    exact False.elim

/-! ## Runs -/

/-- The next id is the number of the next round trip. -/
theorem nextId_after (writes : List (Option String)) (stream : List (Reading (ServerLine fromStr)))
    (calls : List (String × Json)) :
    ((service fromStr).after (fresh writes stream) calls).nextId + 1 =
      requestId (calls.length + 1) := by
  induction calls using List.reverseRecOn with
  | nil => rfl
  | append_singleton calls c ih =>
    rw [Service.after_snoc, List.length_append]
    change (roundtrip fromStr ServerLine.text _ c.1 c.2).2.nextId + 1 = _
    rw [roundtrip_nextId, ih]
    simp only [requestId, List.length_singleton, UInt64.ofNat_add]
    rfl

/-- **Response correlation.** In every run of round trips on one connection, each answer was read from
the server's response to that very request, if and only if no line crosses the request while it waits:
no request of the server's with the same number, no response to another request with the same `u64`,
before the response. -/
theorem responses_correlated_iff (writes : List (Option String))
    (stream : List (Reading (ServerLine fromStr))) (calls : List (String × Json)) :
    Every (fun done c => Correlated (done.length + 1)
        ((service fromStr).after (fresh writes stream) done)
        ((service fromStr).handle ((service fromStr).after (fresh writes stream) done) c)) calls ↔
      Every (fun done _ =>
        ¬ ((service fromStr).after (fresh writes stream) done).Writable ∨
          Uncrossed (done.length + 1)
            ((service fromStr).after (fresh writes stream) done).unread) calls := by
  have hcall := fun done (c : String × Json) =>
    correlated_iff (nextId_after writes stream done) c.1 c.2
  constructor
  · intro h done c later hsplit
    exact (hcall done c).mp (h done c later hsplit)
  · intro h done c later hsplit
    exact (hcall done c).mpr (h done c later hsplit)

/-! ## The server's own request -/

def pingText : String := "\x7b\"jsonrpc\":\"2.0\",\"id\":1,\"method\":\"ping\"\x7d"

def ping : Json :=
  .object [("jsonrpc", .string "2.0"), ("id", .number "1"), ("method", .string "ping")]

def resultText : String := "\x7b\"jsonrpc\":\"2.0\",\"id\":1,\"result\":\x7b\x7d\x7d"

def result : Json :=
  .object [("jsonrpc", .string "2.0"), ("id", .number "1"), ("result", .object [])]

/-- The parser, as far as the two texts go. -/
def sampleParser (text : String) : Except String Json :=
  if text = pingText then .ok ping
  else if text = resultText then .ok result
  else .error "not a sample"

def pingLine : ServerLine sampleParser := ⟨pingText, .request, ping, rfl, rfl, rfl⟩

def resultLine : ServerLine sampleParser := ⟨resultText, .response 1, result, rfl, rfl, rfl⟩

/-- The server pings the client under its own number 1 before it answers the client's request 1, and the
ping is returned as the result. -/
theorem ping_taken_for_answer :
    ¬ Every (fun done c => Correlated (done.length + 1)
        ((service sampleParser).after (fresh [] [.line pingLine, .line resultLine]) done)
        ((service sampleParser).handle
          ((service sampleParser).after (fresh [] [.line pingLine, .line resultLine]) done) c))
      [("server/discover", probeParams)] := by
  intro h
  obtain ⟨front, l, msg, hstream, horigin, -⟩ := h [] ("server/discover", probeParams) [] rfl trivial
  have hrest : [Reading.line pingLine] ++ [.line resultLine] = (front ++ [.line l]) ++ [.line resultLine] :=
    hstream.trans (List.append_cons front (.line l) [.line resultLine])
  obtain ⟨rfl, hline⟩ := List.append_inj' (List.append_cancel_right hrest : [] ++ [_] = _) rfl
  cases hline
  cases horigin

end McpConnection

end GooseClaw
