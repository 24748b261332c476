import GooseClaw.Vault.Framing
import GooseClaw.Vault.Tools

/-!
# How a connection is lost

What can happen to the transport under a call, and what the code makes of it. A request that cannot be
written, a read that fails, a stream that has ended and a wait that runs into its deadline come out as
`Transport` or `Timeout`. A stream that ends inside a line does not: `read_line` returns the part that
came, and `roundtrip` parses it like a line. If the part is no JSON text the loss comes out as `Protocol`
(`Loss.Garbles`), like a line of the server's that is none.

`callTool_meets` and `meets_or_garbage` say that these are the ways a tool call fails, short of a line
of the server's: an error it answers with, or a whole line that does not parse. Nothing is said about a
part of a line that happens to be the whole answer, since the call is answered by it.
-/

namespace GooseClaw

open Found

/-- What happens to the transport under a call. -/
inductive Loss
  /-- The factory fails, or the handshake. -/
  | unconnected (e : ConnectError)
  /-- The request cannot be written. -/
  | unsent (message : String)
  /-- A read fails. -/
  | unread (message : String)
  /-- The stream has ended. -/
  | ended
  /-- The stream ends inside a line, of which this has come. -/
  | endedInside (part : String)
  /-- The deadline passes. -/
  | silent

namespace Loss

variable (fromStr : String → Except String Json)

/-- The part of a line that came is parsed, and is no JSON text. -/
def Garbles : Loss → Prop
  | .endedInside part => ∃ e, McpConnection.content fromStr id part = .unparsable e
  | _ => False

/-- The error a tool call makes of the loss. -/
inductive Gives : Loss → McpError → Prop
  | unsent {m : String} : Gives (.unsent m) (.transport m)
  | unread {m : String} : Gives (.unread m) (.transport m)
  | ended : Gives .ended (.transport "eof (server closed stdio)")
  | garbled {part e : String} : McpConnection.content fromStr id part = .unparsable e →
      Gives (.endedInside part) (.protocol e)
  | unfinished {part : String} : (∀ e, McpConnection.content fromStr id part ≠ .unparsable e) →
      Gives (.endedInside part) (.transport "eof (server closed stdio)")
  | silent : Gives .silent .timeout

variable {fromStr}

/-- A loss comes out as what it is, unless the part of a line is no JSON text. -/
theorem Gives.isTransport_iff {loss : Loss} {e : McpError} (h : loss.Gives fromStr e) :
    e.isTransport = true ↔ ¬ loss.Garbles fromStr := by
  cases h with
  | garbled hpart => exact ⟨nofun, fun hnot => absurd ⟨_, hpart⟩ hnot⟩
  | unfinished hpart => exact ⟨fun _ ⟨e, he⟩ => hpart e he, fun _ => rfl⟩
  | _ => exact ⟨fun _ => id, fun _ => rfl⟩

end Loss

namespace McpConnection

section

variable {L : Type*} (fromStr : String → Except String Json) (text : L → String)

/-- The stream where the wait for an id meets the loss. -/
inductive Comes (id : UInt64) : Loss → List (Reading L) → Prop
  | unread {m : String} {rest : List (Reading L)} : Comes id (.unread m) (.failed m :: rest)
  | ended {rest : List (Reading L)} : Comes id .ended (.eof :: rest)
  | endedInside {l : L} {part : String} : text l = part → '\n' ∉ part.toList →
      (∀ msg, content fromStr text l = .message msg → messageId msg ≠ some id) →
      Comes id (.endedInside part) [.line l, .eof]
  | silent : Comes id .silent []
  | deadline {rest : List (Reading L)} : Comes id .silent (.deadline :: rest)

/-- The next request over the connection meets the loss. -/
inductive Meets (conn : McpConnection L) : Loss → Prop
  | unsent {m : String} : conn.writes.head? = some (some m) → Meets conn (.unsent m)
  | waiting {loss : Loss} {front tail : List (Reading L)} : conn.Writable →
      conn.unread = front ++ tail → (∀ r ∈ front, PassedOver fromStr text (conn.nextId + 1) r) →
      Comes fromStr text (conn.nextId + 1) loss tail → Meets conn loss

variable {fromStr text}

/-- Of a line its text is looked at, and no more. -/
theorem content_text (l : L) : content fromStr text l = content fromStr id (text l) := rfl

/-- A wait that comes to the loss makes an error of it. -/
theorem Comes.awaitAnswer {id : UInt64} {loss : Loss} {tail : List (Reading L)}
    (h : Comes fromStr text id loss tail) :
    ∃ e, loss.Gives fromStr e ∧ (awaitAnswer fromStr text id tail).1 = .error e := by
  cases h with
  | unread => exact ⟨_, .unread, rfl⟩
  | ended => exact ⟨_, .ended, rfl⟩
  | silent => exact ⟨_, .silent, rfl⟩
  | deadline => exact ⟨_, .silent, rfl⟩
  | @endedInside l part htext hnewline hother =>
    subst htext
    cases hpart : content fromStr text l with
    | unparsable e => exact ⟨_, .garbled hpart, by simp only [McpConnection.awaitAnswer, hpart]⟩
    | blank =>
      refine ⟨_, .unfinished fun e he => ?_, by simp only [McpConnection.awaitAnswer, hpart]⟩
      cases hpart.symm.trans he
    | message msg =>
      refine ⟨_, .unfinished fun e he => ?_, ?_⟩
      · cases hpart.symm.trans he
      · simp only [McpConnection.awaitAnswer, hpart, if_pos (hother msg hpart)]

/-- **A tool call that meets a loss makes an error of it.** -/
theorem callTool_meets {conn : McpConnection L} {loss : Loss} (h : conn.Meets fromStr text loss)
    (call : ToolCall) :
    ∃ e, loss.Gives fromStr e ∧ (conn.callTool fromStr text call).1 = .error e := by
  cases h with
  | @unsent m hwrite =>
    obtain ⟨unread, writes, sent, nextId, era, negotiatedVersion⟩ := conn
    cases writes with
    | nil => cases hwrite
    | cons write writes =>
      cases hwrite
      exact ⟨_, .unsent, rfl⟩
  | waiting hwrite hunread hfront hcomes =>
    obtain ⟨e, hgives, hreply⟩ := hcomes.awaitAnswer
    refine ⟨e, hgives, ?_⟩
    unfold callTool
    rw [roundtrip_writable hwrite, hunread, awaitAnswer_append hfront]
    simp only [hreply]
    rfl

end

end McpConnection

/-! ## What is not a loss -/

namespace Incoming

/-- When the server closes the stream inside a line, the part that came is read, and then the end. -/
theorem atEnd_pending {incoming : Incoming} {part : String} (hclosed : incoming.closed = true)
    (hpart : pending isNewline [] incoming.arrivals = utf8 part) (hne : utf8 part ≠ []) :
    ∃ start, incoming.atEnd = [.line ⟨start, part⟩, .eof] := by
  have hline (start : Nat) : lineOf start (utf8 part) = .line ⟨start, part⟩ :=
    lineOf_eq_line.mpr ⟨rfl, rfl⟩
  unfold atEnd
  rw [if_pos hclosed, hpart]
  split
  · next hnil => exact absurd hnil hne
  · exact ⟨_, by rw [hline]⟩

/-- A line without its newline is what is left when the stream ends. -/
theorem atEnd_line {incoming : Incoming} {front rest : List (Reading StreamLine)} {l : StreamLine}
    (h : incoming.atEnd = front ++ .line l :: rest) : rest = [.eof] := by
  unfold atEnd at h
  split at h
  · split at h
    · cases front with
      | nil => cases h
      | cons r front => simp at h
    · cases front with
      | nil => exact (List.cons.inj h).2.symm
      | cons r front =>
        cases front with
        | nil => cases (List.cons.inj h).2
        | cons r' front => simp at h
  · simp at h

/-- A line that is read without its newline is the last. -/
theorem readings_unended {incoming : Incoming} {front rest : List (Reading StreamLine)}
    {l : StreamLine} (h : incoming.readings = front ++ .line l :: rest)
    (hl : '\n' ∉ l.text.toList) : rest = [.eof] := by
  have hundelivered : .line l ∉ (deliveries isNewline 0 [] incoming.arrivals).map readingOf := by
    intro hmem
    obtain ⟨d, hd, hread⟩ := List.mem_map.mp hmem
    cases d with
    | line start bytes =>
      obtain ⟨-, rfl⟩ := lineOf_eq_line.mp hread
      obtain ⟨-, -, -, -, ⟨x, b, hbytes, -, hb⟩, -⟩ := line_mem_deliveries.mp hd
      have hfree := isNewline_of_noNewline hl b (hbytes ▸ List.mem_concat_self)
      rw [hb] at hfree
      cases hfree
    | cut cause => cases cause <;> cases hread
  unfold readings at h
  rcases List.append_eq_append_iff.mp h with ⟨w, -, hrest⟩ | ⟨w, hdelivered, hrest⟩
  · exact atEnd_line hrest
  · cases w with
    | nil =>
      have hnil : incoming.atEnd = [] ++ .line l :: rest := hrest.symm
      exact atEnd_line hnil
    | cons r w =>
      cases (List.cons.inj hrest).1
      refine absurd ?_ hundelivered
      rw [hdelivered]
      exact List.mem_append_right _ List.mem_cons_self

end Incoming

namespace McpConnection

variable {fromStr : String → Except String Json}

/-- **A tool call that fails has met a loss**, or the server answered with an error, or sent a whole line
that does not parse. -/
theorem meets_or_garbage {incoming : Incoming} {used : List (Reading StreamLine)}
    {conn : McpConnection StreamLine} (hstream : incoming.readings = used ++ conn.unread)
    {call : ToolCall} {e : McpError}
    (h : (conn.callTool fromStr StreamLine.text call).1 = .error e) :
    (∃ loss, conn.Meets fromStr StreamLine.text loss ∧ loss.Gives fromStr e) ∨
      (∃ code m, e = .remote code m) ∨
      ∃ l m, .line l ∈ conn.unread ∧ '\n' ∈ l.text.toList ∧
        content fromStr StreamLine.text l = .unparsable m ∧ e = .protocol m := by
  have met {loss : Loss} (hmeets : conn.Meets fromStr StreamLine.text loss) :
      ∃ loss, conn.Meets fromStr StreamLine.text loss ∧ loss.Gives fromStr e := by
    obtain ⟨e', hgives, hreply⟩ := callTool_meets hmeets call
    cases hreply.symm.trans h
    exact ⟨loss, hmeets, hgives⟩
  by_cases hwrite : conn.Writable
  · unfold callTool at h
    rw [roundtrip_writable hwrite] at h
    rcases wait_cases fromStr StreamLine.text (conn.nextId + 1) conn.unread with
      ⟨l, msg, rest, hfirst⟩ | ⟨e', rest, hbroken⟩
    · rw [awaitAnswer_first hfirst] at h
      have hanswer := isAnswer_answer msg
      generalize answer msg = reply at h hanswer
      cases reply with
      | ok result => cases h
      | error e' =>
        cases h
        cases e with
        | remote code m => exact .inr (.inl ⟨code, m, rfl⟩)
        | _ => exact hanswer.elim
    · rw [awaitAnswer_broken hbroken] at h
      cases h
      obtain ⟨front, tail, hunread, hfront, hbreaks⟩ := hbroken
      cases hbreaks with
      | silent => exact .inl (met (.waiting hwrite hunread hfront .silent))
      | deadline => exact .inl (met (.waiting hwrite hunread hfront .deadline))
      | failed => exact .inl (met (.waiting hwrite hunread hfront .unread))
      | eof => exact .inl (met (.waiting hwrite hunread hfront .ended))
      | @unparsable l m rest hline =>
        by_cases hnewline : '\n' ∈ l.text.toList
        · refine .inr (.inr ⟨l, m, ?_, hnewline, hline, rfl⟩)
          rw [hunread]
          exact List.mem_append_right _ List.mem_cons_self
        · rw [hunread, ← List.append_assoc] at hstream
          obtain rfl := Incoming.readings_unended hstream hnewline
          refine .inl (met (.waiting hwrite hunread hfront (.endedInside rfl hnewline ?_)))
          intro msg hmsg
          cases hline.symm.trans hmsg
  · unfold Writable at hwrite
    push Not at hwrite
    obtain ⟨m, hm⟩ := hwrite
    exact .inl (met (.unsent hm))

end McpConnection

end GooseClaw
