import GooseClaw.Found.Trace
import GooseClaw.Vault.Connection

/-!
# Waiting for an answer

What a wait for an id comes to, read off the stream. Lines are passed over (`PassedOver`) up to the
first message with the id (`FirstAnswer`), or to the point where the wait breaks off before it
(`Broken`). One of the two happens (`wait_cases`), and `awaitAnswer` returns accordingly.
-/

namespace GooseClaw

open Found

/-- The reply was read from a message: a result, or an error of the server. -/
def IsAnswer : Except McpError Json → Prop
  | .ok _ => True
  | .error (.remote _ _) => True
  | .error _ => False

theorem isAnswer_answer (msg : Json) : IsAnswer (answer msg) := by
  unfold answer
  cases msg.get "error" with
  | some err => trivial
  | none => trivial

namespace McpConnection

variable {L : Type*} (fromStr : String → Except String Json) (text : L → String)

/-- A line that is blank, or a message without the id. -/
def PassedOver (id : UInt64) (r : Reading L) : Prop :=
  ∃ l, r = .line l ∧ (content fromStr text l = .blank ∨
    ∃ msg, content fromStr text l = .message msg ∧ messageId msg ≠ some id)

/-- `msg` is the first message with the id, on the line `l`, and `rest` is behind it. -/
def FirstAnswer (id : UInt64) (stream : List (Reading L)) (l : L) (msg : Json)
    (rest : List (Reading L)) : Prop :=
  ∃ front, stream = front ++ .line l :: rest ∧ (∀ r ∈ front, PassedOver fromStr text id r) ∧
    content fromStr text l = .message msg ∧ messageId msg = some id

/-- A wait that comes here breaks off. -/
inductive Breaks : List (Reading L) → McpError → List (Reading L) → Prop
  | silent : Breaks [] .timeout []
  | deadline {rest} : Breaks (.deadline :: rest) .timeout rest
  | failed {e rest} : Breaks (.failed e :: rest) (.transport e) rest
  | eof {rest} : Breaks (.eof :: rest) (.transport "eof (server closed stdio)") (.eof :: rest)
  | unparsable {l e rest} : content fromStr text l = .unparsable e →
    Breaks (.line l :: rest) (.protocol e) rest

/-- The wait breaks off before any message with the id. -/
def Broken (id : UInt64) (stream : List (Reading L)) (e : McpError)
    (rest : List (Reading L)) : Prop :=
  ∃ front tail, stream = front ++ tail ∧ (∀ r ∈ front, PassedOver fromStr text id r) ∧
    Breaks fromStr text tail e rest

variable {fromStr text}

/-- A message that is passed over has another id. -/
theorem PassedOver.messageId_ne {id : UInt64} {l : L} {msg : Json}
    (h : PassedOver fromStr text id (.line l)) (hmsg : content fromStr text l = .message msg) :
    messageId msg ≠ some id := by
  obtain ⟨l', hl, hblank | ⟨msg', hmsg', hid⟩⟩ := h
  · cases hl
    cases hblank.symm.trans hmsg
  · cases hl
    cases hmsg.symm.trans hmsg'
    exact hid

theorem awaitAnswer_passedOver {id : UInt64} {r : Reading L} (h : PassedOver fromStr text id r)
    (rest : List (Reading L)) :
    awaitAnswer fromStr text id (r :: rest) = awaitAnswer fromStr text id rest := by
  obtain ⟨l, rfl, hblank | ⟨msg, hmsg, hid⟩⟩ := h
  · simp only [awaitAnswer, hblank]
  · simp only [awaitAnswer, hmsg, if_pos hid]

theorem awaitAnswer_append {id : UInt64} {front : List (Reading L)}
    (h : ∀ r ∈ front, PassedOver fromStr text id r) (rest : List (Reading L)) :
    awaitAnswer fromStr text id (front ++ rest) = awaitAnswer fromStr text id rest := by
  induction front with
  | nil => rfl
  | cons r front ih =>
    rw [List.cons_append, awaitAnswer_passedOver (h r List.mem_cons_self),
      ih fun r' hr' => h r' (List.mem_cons_of_mem r hr')]

/-- The first message with the id is the answer. -/
theorem awaitAnswer_first {id : UInt64} {stream rest : List (Reading L)} {l : L} {msg : Json}
    (h : FirstAnswer fromStr text id stream l msg rest) :
    awaitAnswer fromStr text id stream = (answer msg, rest) := by
  obtain ⟨front, rfl, hfront, hmsg, hid⟩ := h
  rw [awaitAnswer_append hfront]
  simp only [awaitAnswer, hmsg, hid, ne_eq, not_true_eq_false, if_false]

theorem awaitAnswer_broken {id : UInt64} {stream rest : List (Reading L)} {e : McpError}
    (h : Broken fromStr text id stream e rest) :
    awaitAnswer fromStr text id stream = (.error e, rest) := by
  obtain ⟨front, tail, rfl, hfront, hbreaks⟩ := h
  rw [awaitAnswer_append hfront]
  cases hbreaks with
  | unparsable hline => simp only [awaitAnswer, hline]
  | _ => rfl

theorem Breaks.not_isAnswer {tail rest : List (Reading L)} {e : McpError}
    (h : Breaks fromStr text tail e rest) : ¬ IsAnswer (.error e) := by
  cases h <;> exact id

/-- The first message with the id is on the first line, or behind one that is passed over. -/
theorem firstAnswer_cons {id : UInt64} {r : Reading L} {stream rest : List (Reading L)} {l : L}
    {msg : Json} :
    FirstAnswer fromStr text id (r :: stream) l msg rest ↔
      (r = .line l ∧ stream = rest ∧ content fromStr text l = .message msg ∧
        messageId msg = some id) ∨
      PassedOver fromStr text id r ∧ FirstAnswer fromStr text id stream l msg rest := by
  constructor
  · rintro ⟨front, hstream, hfront, hmsg, hid⟩
    cases front with
    | nil =>
      obtain ⟨rfl, rfl⟩ := List.cons.inj hstream
      exact .inl ⟨rfl, rfl, hmsg, hid⟩
    | cons r' front =>
      obtain ⟨rfl, rfl⟩ := List.cons.inj hstream
      obtain ⟨hr, hfront⟩ := List.forall_mem_cons.mp hfront
      exact .inr ⟨hr, front, rfl, hfront, hmsg, hid⟩
  · rintro (⟨rfl, rfl, hmsg, hid⟩ | ⟨hr, front, rfl, hfront, hmsg, hid⟩)
    · exact ⟨[], rfl, nofun, hmsg, hid⟩
    · exact ⟨r :: front, rfl, List.forall_mem_cons.mpr ⟨hr, hfront⟩, hmsg, hid⟩

/-- A line that is passed over may stand anywhere in the stream. -/
theorem firstAnswer_insert {id : UInt64} {r : Reading L} (hr : PassedOver fromStr text id r)
    (front behind : List (Reading L)) (msg : Json) :
    (∃ l rest, FirstAnswer fromStr text id (front ++ r :: behind) l msg rest) ↔
      ∃ l rest, FirstAnswer fromStr text id (front ++ behind) l msg rest := by
  induction front with
  | nil =>
    constructor
    · rintro ⟨l, rest, h⟩
      rcases firstAnswer_cons.mp h with ⟨rfl, -, hmsg, hid⟩ | ⟨-, h⟩
      · exact absurd hid (hr.messageId_ne hmsg)
      · exact ⟨l, rest, h⟩
    · rintro ⟨l, rest, h⟩
      exact ⟨l, rest, firstAnswer_cons.mpr (.inr ⟨hr, h⟩)⟩
  | cons q front ih =>
    simp only [List.cons_append, firstAnswer_cons]
    constructor
    · rintro ⟨l, rest, ⟨hq, -, hmsg, hid⟩ | ⟨hq, h⟩⟩
      · exact ⟨l, _, .inl ⟨hq, rfl, hmsg, hid⟩⟩
      · obtain ⟨l', rest', h'⟩ := ih.mp ⟨l, rest, h⟩
        exact ⟨l', rest', .inr ⟨hq, h'⟩⟩
    · rintro ⟨l, rest, ⟨hq, -, hmsg, hid⟩ | ⟨hq, h⟩⟩
      · exact ⟨l, _, .inl ⟨hq, rfl, hmsg, hid⟩⟩
      · obtain ⟨l', rest', h'⟩ := ih.mpr ⟨l, rest, h⟩
        exact ⟨l', rest', .inr ⟨hq, h'⟩⟩

theorem Broken.cons {id : UInt64} {r : Reading L} {stream rest : List (Reading L)} {e : McpError}
    (h : Broken fromStr text id stream e rest) (hr : PassedOver fromStr text id r) :
    Broken fromStr text id (r :: stream) e rest := by
  obtain ⟨front, tail, rfl, hfront, hbreaks⟩ := h
  exact ⟨r :: front, tail, rfl, List.forall_mem_cons.mpr ⟨hr, hfront⟩, hbreaks⟩

/-- **Every wait comes to an end**: at the first message with the id, or before it. -/
theorem wait_cases (fromStr : String → Except String Json) (text : L → String) (id : UInt64)
    (stream : List (Reading L)) :
    (∃ l msg rest, FirstAnswer fromStr text id stream l msg rest) ∨
      ∃ e rest, Broken fromStr text id stream e rest := by
  induction stream with
  | nil => exact .inr ⟨_, _, [], [], rfl, nofun, .silent⟩
  | cons r stream ih =>
    have onward (hr : PassedOver fromStr text id r) :
        (∃ l msg rest, FirstAnswer fromStr text id (r :: stream) l msg rest) ∨
          ∃ e rest, Broken fromStr text id (r :: stream) e rest :=
      ih.imp (fun ⟨l, msg, rest, h⟩ => ⟨l, msg, rest, firstAnswer_cons.mpr (.inr ⟨hr, h⟩)⟩)
        fun ⟨e, rest, h⟩ => ⟨e, rest, h.cons hr⟩
    cases r with
    | failed e => exact .inr ⟨_, _, [], _, rfl, nofun, .failed⟩
    | eof => exact .inr ⟨_, _, [], _, rfl, nofun, .eof⟩
    | deadline => exact .inr ⟨_, _, [], _, rfl, nofun, .deadline⟩
    | line l =>
      cases hline : content fromStr text l with
      | blank => exact onward ⟨l, rfl, .inl hline⟩
      | unparsable e => exact .inr ⟨_, _, [], _, rfl, nofun, .unparsable hline⟩
      | message msg =>
        by_cases hid : messageId msg = some id
        · exact .inl ⟨l, msg, stream, [], rfl, nofun, hline, hid⟩
        · exact onward ⟨l, rfl, .inr ⟨msg, hline, hid⟩⟩

/-- There is one first message with the id. -/
theorem FirstAnswer.unique {id : UInt64} {stream rest rest' : List (Reading L)} {l l' : L}
    {msg msg' : Json} (h : FirstAnswer fromStr text id stream l msg rest)
    (h' : FirstAnswer fromStr text id stream l' msg' rest') : msg = msg' := by
  obtain ⟨front, hstream, hfront, hmsg, hid⟩ := h
  obtain ⟨front', hstream', hfront', hmsg', hid'⟩ := h'
  rcases append_cons_compare (hstream.symm.trans hstream') with ⟨-, heq, -⟩ | ⟨w, rfl⟩ | ⟨w, rfl⟩
  · cases heq
    exact LineContent.message.inj (hmsg.symm.trans hmsg')
  · have hover := hfront' _ (List.mem_append_right front List.mem_cons_self)
    exact absurd hid (hover.messageId_ne hmsg)
  · have hover := hfront _ (List.mem_append_right front' List.mem_cons_self)
    exact absurd hid' (hover.messageId_ne hmsg')

/-- A wait that breaks off has no answer. -/
theorem Broken.not_first {id : UInt64} {stream rest rest' : List (Reading L)} {e : McpError} {l : L}
    {msg : Json} (h : Broken fromStr text id stream e rest) :
    ¬ FirstAnswer fromStr text id stream l msg rest' := by
  intro hfirst
  have hsame := (awaitAnswer_broken h).symm.trans (awaitAnswer_first hfirst)
  have hanswer := isAnswer_answer msg
  rw [← (Prod.mk.inj hsame).1] at hanswer
  obtain ⟨_, _, _, _, hbreaks⟩ := h
  exact hbreaks.not_isAnswer hanswer

/-! ## Round trips -/

/-- The next write goes through. -/
def Writable (conn : McpConnection L) : Prop := ∀ e, conn.writes.head? ≠ some (some e)

theorem writable_of_nil {conn : McpConnection L} (h : conn.writes = []) : conn.Writable := by
  unfold Writable
  rw [h]
  nofun

theorem sendValue_writable {conn : McpConnection L} (h : conn.Writable) (v : Json) :
    conn.sendValue v =
      (.ok (), { conn with writes := conn.writes.tail, sent := conn.sent ++ [v] }) := by
  obtain ⟨unread, writes, sent, nextId, era, negotiatedVersion⟩ := conn
  cases writes with
  | nil => rfl
  | cons write writes =>
    cases write with
    | none => rfl
    | some e => exact absurd rfl (h e)

theorem sendValue_not_writable {conn : McpConnection L} (h : ¬ conn.Writable) (v : Json) :
    ∃ e, conn.sendValue v = (.error (.transport e), { conn with writes := conn.writes.tail }) := by
  obtain ⟨unread, writes, sent, nextId, era, negotiatedVersion⟩ := conn
  unfold Writable at h
  push Not at h
  obtain ⟨e, he⟩ := h
  refine ⟨e, ?_⟩
  cases writes with
  | nil => cases he
  | cons write writes =>
    cases he
    rfl

/-- A request that is written is waited for. -/
theorem roundtrip_writable {conn : McpConnection L} (h : conn.Writable) (method : String)
    (params : Json) :
    conn.roundtrip fromStr text method params =
      ((awaitAnswer fromStr text (conn.nextId + 1) conn.unread).1,
        { conn with
          unread := (awaitAnswer fromStr text (conn.nextId + 1) conn.unread).2
          writes := conn.writes.tail
          sent := conn.sent ++ [requestMessage (conn.nextId + 1) method params]
          nextId := conn.nextId + 1 }) := by
  have hwrite : ({ conn with nextId := conn.nextId + 1 } : McpConnection L).Writable := h
  unfold roundtrip
  simp only [sendValue_writable hwrite]

/-- A request that is not written is not waited for. -/
theorem roundtrip_not_writable {conn : McpConnection L} (h : ¬ conn.Writable) (method : String)
    (params : Json) :
    ∃ e, conn.roundtrip fromStr text method params =
      (.error (.transport e),
        { conn with writes := conn.writes.tail, nextId := conn.nextId + 1 }) := by
  have hwrite : ¬ ({ conn with nextId := conn.nextId + 1 } : McpConnection L).Writable := h
  obtain ⟨e, he⟩ := sendValue_not_writable hwrite (requestMessage (conn.nextId + 1) method params)
  refine ⟨e, ?_⟩
  unfold roundtrip
  simp only [he]

/-- Every round trip takes the next id. -/
theorem roundtrip_nextId (conn : McpConnection L) (method : String) (params : Json) :
    (conn.roundtrip fromStr text method params).2.nextId = conn.nextId + 1 := by
  by_cases h : conn.Writable
  · rw [roundtrip_writable h]
  · obtain ⟨e, he⟩ := @roundtrip_not_writable L fromStr text conn h method params
    rw [he]

end McpConnection

end GooseClaw
