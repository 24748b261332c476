import GooseClaw.Found.Framing
import GooseClaw.Vault.Waiting

/-!
# Lines in fragments

The stream under the connection's reads. The server's lines come in as bytes, in fragments, and a read
may break off between any two. What `read_line` has taken by then goes with the read: `roundtrip` keeps
the line in a local of the future its timeout drops, and the next `roundtrip` on the connection reads on
in the middle of the line.

A line has its place in the stream here, so a line can be told from the end of another that reads like
it. `framing_kept_iff` says which interruptions do harm.
-/

namespace GooseClaw

open Found

/-! ## The stream -/

/-- What ends a read before its line is whole. -/
inductive Interruption
  | deadline
  | failed (message : String)

/-- What comes in at one time. -/
inductive Piece
  | bytes (fragment : List UInt8)
  | interrupted (cause : Interruption)

def Piece.arrivals : Piece → List (Arrival UInt8 Interruption)
  | .bytes fragment => fragment.map .item
  | .interrupted cause => [.cut cause]

/-- What comes in over a stream, and whether the server closes it then. -/
structure Incoming where
  pieces : List Piece
  closed : Bool

/-- A line as `read_line` returns it, and where in the stream it begins. -/
structure StreamLine where
  start : Nat
  text : String
  deriving DecidableEq

namespace Incoming

def arrivals (incoming : Incoming) : List (Arrival UInt8 Interruption) :=
  incoming.pieces.flatMap Piece.arrivals

/-- The bytes that came in. -/
def arrived (incoming : Incoming) : List UInt8 := Arrival.items incoming.arrivals

/-- `read_line` once the bytes are all there. Bytes that are no text are an error of the stream. -/
def lineOf (start : Nat) (bytes : List UInt8) : Reading StreamLine :=
  match decodeUtf8 bytes with
  | some text => .line ⟨start, text⟩
  | none => .failed "stream did not contain valid UTF-8"

def readingOf : Delivery UInt8 Interruption → Reading StreamLine
  | .line start bytes => lineOf start bytes
  | .cut .deadline => .deadline
  | .cut (.failed e) => .failed e

/-- What is left of a line when the server closes the stream is read as a line. -/
def atEnd (incoming : Incoming) : List (Reading StreamLine) :=
  if incoming.closed then
    match pending isNewline [] incoming.arrivals with
    | [] => [.eof]
    | rest => [lineOf (incoming.arrived.length - rest.length) rest, .eof]
  else []

/-- What the reads of the connection find. -/
def readings (incoming : Incoming) : List (Reading StreamLine) :=
  (deliveries isNewline 0 [] incoming.arrivals).map readingOf ++ incoming.atEnd

end Incoming

/-! ## The server's lines -/

/-- The stream of a server that sends these messages, each on a line of its own. -/
def streamOf (messages : List String) : List UInt8 := messages.flatMap fun m => utf8 (m.push '\n')

/-- The line is that of a message, in its place. -/
def SentLine (messages : List String) (l : StreamLine) : Prop :=
  ∃ earlier m later, messages = earlier ++ m :: later ∧ l.start = (streamOf earlier).length ∧
    l.text = m.push '\n'

theorem streamOf_cons (m : String) (messages : List String) :
    streamOf (m :: messages) = utf8 m ++ newline :: streamOf messages := by
  rw [streamOf, List.flatMap_cons, utf8_push_newline, List.append_assoc]
  rfl

theorem length_streamOf_cons (m : String) (messages : List String) :
    (streamOf (m :: messages)).length = (utf8 m).length + 1 + (streamOf messages).length := by
  rw [streamOf_cons, List.length_append, List.length_cons]
  omega

theorem sentLine_cons {m : String} {messages : List String} {l : StreamLine} :
    SentLine (m :: messages) l ↔
      l.start = 0 ∧ l.text = m.push '\n' ∨
        ∃ n, l.start = (utf8 m).length + 1 + n ∧ SentLine messages ⟨n, l.text⟩ := by
  constructor
  · rintro ⟨earlier, m', later, heq, hstart, htext⟩
    cases earlier with
    | nil =>
      obtain ⟨rfl, rfl⟩ := List.cons.inj heq
      exact .inl ⟨hstart, htext⟩
    | cons e earlier =>
      obtain ⟨rfl, rfl⟩ := List.cons.inj heq
      rw [length_streamOf_cons] at hstart
      exact .inr ⟨_, hstart, earlier, m', later, rfl, rfl, htext⟩
  · rintro (⟨hstart, htext⟩ | ⟨n, hstart, earlier, m', later, rfl, rfl, htext⟩)
    · exact ⟨[], m, messages, rfl, hstart, htext⟩
    · refine ⟨m :: earlier, m', later, rfl, ?_, htext⟩
      rw [hstart, length_streamOf_cons]

theorem endsIn_streamOf (messages : List String) : EndsIn isNewline (streamOf messages) := by
  induction messages with
  | nil => exact endsIn_nil
  | cons m messages ih =>
    rw [streamOf_cons, List.append_cons]
    exact (endsIn_snoc rfl).append ih

/-- The lines of the stream are those of the messages. -/
theorem lineAt_streamOf {messages : List String} (hfree : ∀ m ∈ messages, '\n' ∉ m.toList)
    {start : Nat} {text : String} :
    LineAt isNewline (streamOf messages) start (utf8 text) ↔ SentLine messages ⟨start, text⟩ := by
  induction messages generalizing start with
  | nil =>
    constructor
    · rintro ⟨before, behind, heq, -, ⟨x, s, hline, -, -⟩, -⟩
      rw [hline] at heq
      simp [streamOf] at heq
    · rintro ⟨earlier, m, later, heq, -, -⟩
      simp at heq
  | cons m messages ih =>
    obtain ⟨hm, hrest⟩ := List.forall_mem_cons.mp hfree
    rw [streamOf_cons, lineAt_append_cons (isNewline_of_noNewline hm) rfl, sentLine_cons,
      ← utf8_push_newline, utf8_inj]
    simp only [ih hrest]

/-! ## The lines a round trip parses -/

namespace McpConnection

variable {L : Type*} (fromStr : String → Except String Json) (text : L → String)

/-- The lines that the loop of `roundtrip` hands to the parser. -/
def handed (id : UInt64) : List (Reading L) → List L
  | .line l :: rest =>
    match content fromStr text l with
    | .blank => handed id rest
    | .unparsable _ => [l]
    | .message msg => if messageId msg ≠ some id then l :: handed id rest else [l]
  | _ => []

/-- A line that is not blank. -/
def worded? : Reading L → Option L
  | .line l =>
    match content fromStr text l with
    | .blank => none
    | _ => some l
  | _ => none

/-- The lines of a stretch of the stream, less the blank ones. -/
def worded (stream : List (Reading L)) : List L := stream.filterMap (worded? fromStr text)

/-- The lines a round trip parses: none, when its request is not written. -/
def parsed (conn : McpConnection L) (method : String) (params : Json) : List L :=
  let id := conn.nextId + 1
  match { conn with nextId := id }.sendValue (requestMessage id method params) with
  | (.error _, _) => []
  | (.ok (), conn) => handed fromStr text id conn.unread

/-- The connection as a service of round trips: the method and the parameters of each, its reply, and
the lines it parsed. -/
def rounds : Service (McpConnection L) (String × Json) (Except McpError Json × List L) where
  handle conn c :=
    let (reply, conn') := conn.roundtrip fromStr text c.1 c.2
    ((reply, conn.parsed fromStr text c.1 c.2), conn')

variable {fromStr text}

theorem worded?_eq_some {r : Reading L} {l : L} :
    worded? fromStr text r = some l ↔ r = .line l ∧ content fromStr text l ≠ .blank := by
  cases r with
  | line k =>
    cases hk : content fromStr text k with
    | blank =>
      simp only [worded?, hk]
      constructor
      · nofun
      · rintro ⟨heq, hl⟩
        cases heq
        exact absurd hk hl
    | _ =>
      simp only [worded?, hk]
      constructor
      · rintro ⟨⟩
        exact ⟨rfl, by rw [hk]; nofun⟩
      · rintro ⟨⟨⟩, -⟩
        rfl
  | _ => exact ⟨nofun, fun h => absurd h.1 nofun⟩

theorem mem_worded {l : L} {stream : List (Reading L)} :
    l ∈ worded fromStr text stream ↔ .line l ∈ stream ∧ content fromStr text l ≠ .blank := by
  simp only [worded, List.mem_filterMap, worded?_eq_some]
  constructor
  · rintro ⟨r, hr, rfl, hl⟩
    exact ⟨hr, hl⟩
  · rintro ⟨hr, hl⟩
    exact ⟨_, hr, rfl, hl⟩

theorem worded_append (front rest : List (Reading L)) :
    worded fromStr text (front ++ rest) = worded fromStr text front ++ worded fromStr text rest :=
  List.filterMap_append

theorem worded_blank {l : L} (h : content fromStr text l = .blank) (rest : List (Reading L)) :
    worded fromStr text (.line l :: rest) = worded fromStr text rest :=
  List.filterMap_cons_none (by rw [worded?, h])

theorem worded_line {l : L} (h : content fromStr text l ≠ .blank) (rest : List (Reading L)) :
    worded fromStr text (.line l :: rest) = l :: worded fromStr text rest :=
  List.filterMap_cons_some (worded?_eq_some.mpr ⟨rfl, h⟩)

/-! ## One wait -/

/-- A wait uses up the stream from its head on, and parses every line in what it uses that is not
blank. At the stream's end it stays. -/
theorem awaitAnswer_uses (fromStr : String → Except String Json) (text : L → String) (id : UInt64)
    (stream : List (Reading L)) :
    ∃ front, stream = front ++ (awaitAnswer fromStr text id stream).2 ∧
      handed fromStr text id stream = worded fromStr text front ∧
      (front ≠ [] ∨ ∀ r ∈ stream.head?, r = .eof) := by
  induction stream with
  | nil => exact ⟨[], rfl, rfl, .inr (by simp)⟩
  | cons r stream ih =>
    obtain ⟨front, hstream, hhanded, -⟩ := ih
    cases r with
    | failed e => exact ⟨[.failed e], rfl, rfl, .inl (List.cons_ne_nil _ _)⟩
    | deadline => exact ⟨[.deadline], rfl, rfl, .inl (List.cons_ne_nil _ _)⟩
    | eof => exact ⟨[], rfl, rfl, .inr (by simp)⟩
    | line l =>
      cases hline : content fromStr text l with
      | blank =>
        refine ⟨.line l :: front, ?_, ?_, .inl (List.cons_ne_nil _ _)⟩
        · simp only [awaitAnswer, hline, List.cons_append, ← hstream]
        · rw [worded_blank hline]
          simp only [handed, hline, hhanded]
      | unparsable e =>
        have hword : content fromStr text l ≠ .blank := by simp [hline]
        refine ⟨[.line l], ?_, ?_, .inl (List.cons_ne_nil _ _)⟩
        · simp only [awaitAnswer, hline, List.singleton_append]
        · rw [worded_line hword]
          simp only [handed, hline]
          rfl
      | message msg =>
        have hword : content fromStr text l ≠ .blank := by simp [hline]
        by_cases hid : messageId msg ≠ some id
        · refine ⟨.line l :: front, ?_, ?_, .inl (List.cons_ne_nil _ _)⟩
          · simp only [awaitAnswer, hline, if_pos hid, List.cons_append, ← hstream]
          · rw [worded_line hword]
            simp only [handed, hline, if_pos hid, hhanded]
        · refine ⟨[.line l], ?_, ?_, .inl (List.cons_ne_nil _ _)⟩
          · simp only [awaitAnswer, hline, if_neg hid, List.singleton_append]
          · rw [worded_line hword]
            simp only [handed, hline, if_neg hid]
            rfl

/-- A wait fails with a protocol error at a line it could not parse. -/
theorem exists_unparsable {id : UInt64} {stream : List (Reading L)} {e : String}
    (h : (awaitAnswer fromStr text id stream).1 = .error (.protocol e)) :
    ∃ l ∈ handed fromStr text id stream, content fromStr text l = .unparsable e := by
  induction stream with
  | nil => cases h
  | cons r stream ih =>
    cases r with
    | failed e' => cases h
    | deadline => cases h
    | eof => cases h
    | line l =>
      cases hline : content fromStr text l with
      | blank =>
        simp only [awaitAnswer, hline] at h
        simpa only [handed, hline] using ih h
      | unparsable e' =>
        simp only [awaitAnswer, hline] at h
        cases h
        exact ⟨l, by simp only [handed, hline, List.mem_singleton], hline⟩
      | message msg =>
        by_cases hid : messageId msg ≠ some id
        · simp only [awaitAnswer, hline, if_pos hid] at h
          obtain ⟨l', hl', hcontent⟩ := ih h
          refine ⟨l', ?_, hcontent⟩
          simp only [handed, hline, if_pos hid]
          exact List.mem_cons_of_mem l hl'
        · simp only [awaitAnswer, hline, if_neg hid, answer] at h
          split at h <;> cases h

/-! ## Runs of round trips -/

theorem parsed_writable {conn : McpConnection L} (h : conn.Writable) (method : String)
    (params : Json) :
    conn.parsed fromStr text method params = handed fromStr text (conn.nextId + 1) conn.unread := by
  have hwrite : ({ conn with nextId := conn.nextId + 1 } : McpConnection L).Writable := h
  unfold parsed
  simp only [sendValue_writable hwrite]

theorem parsed_not_writable {conn : McpConnection L} (h : ¬ conn.Writable) (method : String)
    (params : Json) : conn.parsed fromStr text method params = [] := by
  have hwrite : ¬ ({ conn with nextId := conn.nextId + 1 } : McpConnection L).Writable := h
  obtain ⟨e, he⟩ := sendValue_not_writable hwrite (requestMessage (conn.nextId + 1) method params)
  unfold parsed
  simp only [he]

/-- **What one round trip uses up** is what it parses, and blank lines. -/
theorem roundtrip_uses (fromStr : String → Except String Json) (text : L → String)
    (conn : McpConnection L) (c : String × Json) :
    ∃ front, conn.unread = front ++ ((rounds fromStr text).handle conn c).2.unread ∧
      ((rounds fromStr text).handle conn c).1.2 = worded fromStr text front := by
  simp only [rounds]
  by_cases h : conn.Writable
  · obtain ⟨front, hstream, hhanded, -⟩ :=
      awaitAnswer_uses fromStr text (conn.nextId + 1) conn.unread
    refine ⟨front, ?_, ?_⟩
    · rw [roundtrip_writable h]
      exact hstream
    · rw [parsed_writable h, hhanded]
  · obtain ⟨e, heq⟩ := @roundtrip_not_writable L fromStr text conn h c.1 c.2
    refine ⟨[], ?_, ?_⟩
    · rw [heq]
      rfl
    · rw [parsed_not_writable h]
      rfl

/-- **What a run uses up** is what its round trips parse, and blank lines. -/
theorem rounds_use (fromStr : String → Except String Json) (text : L → String)
    (conn : McpConnection L) (calls : List (String × Json)) :
    ∃ front, conn.unread = front ++ ((rounds fromStr text).after conn calls).unread ∧
      ((rounds fromStr text).exchanges conn calls).flatMap (fun ex => ex.2.2) =
        worded fromStr text front := by
  apply (rounds fromStr text).history (P := fun log s =>
    ∃ front, conn.unread = front ++ s.unread ∧
      log.flatMap (fun ex => ex.2.2) = worded fromStr text front)
  · exact ⟨[], rfl, rfl⟩
  · rintro log s c ⟨front, hunread, hlog⟩
    obtain ⟨used, hused, hparsed⟩ := roundtrip_uses fromStr text s c
    refine ⟨front ++ used, ?_, ?_⟩
    · rw [hunread, hused, List.append_assoc]
    · rw [List.flatMap_append, hlog, worded_append, List.flatMap_singleton, hparsed]

/-- A protocol error of a round trip is about a line it parsed. -/
theorem roundtrip_unparsable {conn : McpConnection L} {c : String × Json} {e : String}
    (h : ((rounds fromStr text).handle conn c).1.1 = .error (.protocol e)) :
    ∃ l ∈ ((rounds fromStr text).handle conn c).1.2, content fromStr text l = .unparsable e := by
  simp only [rounds] at h ⊢
  by_cases hw : conn.Writable
  · rw [roundtrip_writable hw] at h
    rw [parsed_writable hw]
    exact exists_unparsable h
  · obtain ⟨e', heq⟩ := @roundtrip_not_writable L fromStr text conn hw c.1 c.2
    rw [heq] at h
    cases h

theorem exchange_unparsable {conn : McpConnection L} {calls : List (String × Json)}
    {ex : (String × Json) × (Except McpError Json × List L)} {e : String}
    (hex : ex ∈ (rounds fromStr text).exchanges conn calls) (h : ex.2.1 = .error (.protocol e)) :
    ∃ l ∈ ex.2.2, content fromStr text l = .unparsable e := by
  induction calls generalizing conn with
  | nil => cases hex
  | cons c calls ih =>
    rcases List.mem_cons.mp hex with rfl | hex
    · exact roundtrip_unparsable h
    · exact ih hex

/-- Round trips enough parse whatever comes before the end of the stream. -/
theorem mem_parsed_of_line_mem {conn : McpConnection L} (hwrites : conn.writes = [])
    (c : String × Json) {front rest : List (Reading L)} (hunread : conn.unread = front ++ rest)
    (hfront : ∀ r ∈ front, r ≠ .eof) {n : Nat} (hn : front.length ≤ n) {l : L}
    (hl : l ∈ worded fromStr text front) :
    ∃ ex ∈ (rounds fromStr text).exchanges conn (List.replicate n c), l ∈ ex.2.2 := by
  induction n generalizing conn front with
  | zero =>
    obtain rfl : front = [] := List.length_eq_zero_iff.mp (Nat.le_zero.mp hn)
    cases hl
  | succ n ih =>
    have hw := writable_of_nil hwrites
    obtain ⟨used, hstream, hhanded, hhead⟩ :=
      awaitAnswer_uses fromStr text (conn.nextId + 1) conn.unread
    have hreply : ((rounds fromStr text).handle conn c).1.2 = worded fromStr text used := by
      simp only [rounds, parsed_writable hw, hhanded]
    have hnext : ((rounds fromStr text).handle conn c).2.unread =
        (awaitAnswer fromStr text (conn.nextId + 1) conn.unread).2 := by
      simp only [rounds, roundtrip_writable hw]
    have hnextWrites : ((rounds fromStr text).handle conn c).2.writes = [] := by
      simp only [rounds, roundtrip_writable hw, hwrites, List.tail_nil]
    have hin {l : L} (hl : l ∈ worded fromStr text used) :
        ∃ ex ∈ (rounds fromStr text).exchanges conn (List.replicate (n + 1) c), l ∈ ex.2.2 :=
      ⟨_, List.mem_cons_self, hreply ▸ hl⟩
    rcases List.append_eq_append_iff.mp (hunread.symm.trans hstream) with
      ⟨w, rfl, -⟩ | ⟨w, rfl, hrest⟩
    · -- the call used up all there is to parse
      apply hin
      rw [worded_append]
      exact List.mem_append_left _ hl
    · rw [worded_append] at hl
      rcases List.mem_append.mp hl with hl | hl
      · exact hin hl
      · have hused : used ≠ [] := by
          rintro rfl
          cases w with
          | nil => cases hl
          | cons r w =>
            rw [hunread] at hhead
            exact hfront r List.mem_cons_self (hhead.resolve_left (not_not_intro rfl) r rfl)
        have hlen : w.length ≤ n := by
          have hpos := List.length_pos_iff.mpr hused
          rw [List.length_append] at hn
          omega
        obtain ⟨ex, hex, hmem⟩ := ih hnextWrites (hnext.trans hrest)
          (fun r hr => hfront r (List.mem_append_right _ hr)) hlen hl
        exact ⟨ex, List.mem_cons_of_mem _ hex, hmem⟩

end McpConnection

/-! ## Which interruptions do harm -/

/-- A text that stands on one line and parses. -/
def IsMessage (fromStr : String → Except String Json) (m : String) : Prop :=
  '\n' ∉ m.toList ∧ ∃ msg, McpConnection.content fromStr id (m.push '\n') = .message msg

namespace Incoming

/-- The stream is that of a server that sends these messages and nothing else, as far as it has come in,
and it is closed behind the last of them at the earliest. -/
structure Serves (fromStr : String → Except String Json) (incoming : Incoming)
    (messages : List String) : Prop where
  sends : ∀ m ∈ messages, IsMessage fromStr m
  arrived : incoming.arrived <+: streamOf messages
  closed : incoming.closed = true → incoming.arrived = streamOf messages

/-- **No read breaks off inside a line of which more comes in** than white space, up to its newline and
before the next read breaks off. -/
def Untorn (incoming : Incoming) : Prop :=
  ∀ before cause text behind,
    incoming.arrivals = before ++ .cut cause :: ((utf8 text).map .item ++ behind) →
      IsLine isNewline (utf8 text) → trim text.toList ≠ [] →
        EndsIn isNewline (Arrival.items before)

variable {fromStr : String → Except String Json} {incoming : Incoming} {messages : List String}

/-- Nothing is left of a line when such a stream is closed. -/
theorem Serves.line_not_mem_atEnd (h : incoming.Serves fromStr messages) (l : StreamLine) :
    .line l ∉ incoming.atEnd := by
  unfold atEnd
  split
  · next hclosed =>
    have hends : EndsIn isNewline incoming.arrived := by
      rw [h.closed hclosed]
      exact endsIn_streamOf messages
    have hnil : pending isNewline [] incoming.arrivals = [] := pending_eq_nil free_nil hends
    rw [hnil]
    simp
  · exact List.not_mem_nil

theorem lineOf_eq_line {start : Nat} {bytes : List UInt8} {l : StreamLine} :
    lineOf start bytes = .line l ↔ l.start = start ∧ utf8 l.text = bytes := by
  obtain ⟨s, t⟩ := l
  unfold lineOf
  rw [← decodeUtf8_eq_some]
  cases decodeUtf8 bytes with
  | none => exact ⟨nofun, nofun⟩
  | some text =>
    simp only [Reading.line.injEq, StreamLine.mk.injEq, Option.some.injEq]
    exact ⟨fun ⟨hs, ht⟩ => ⟨hs.symm, ht⟩, fun ⟨hs, ht⟩ => ⟨hs.symm, ht⟩⟩

/-- The lines that are read are the texts among those delivered. -/
theorem Serves.line_mem_readings (h : incoming.Serves fromStr messages) (l : StreamLine) :
    .line l ∈ incoming.readings ↔
      .line l.start (utf8 l.text) ∈ deliveries isNewline 0 [] incoming.arrivals := by
  rw [readings, List.mem_append, or_iff_left (h.line_not_mem_atEnd l), List.mem_map]
  constructor
  · rintro ⟨d, hd, heq⟩
    cases d with
    | line start bytes =>
      obtain ⟨rfl, rfl⟩ := lineOf_eq_line.mp heq
      exact hd
    | cut cause => cases cause <;> cases heq
  · intro hd
    exact ⟨_, hd, lineOf_eq_line.mpr ⟨rfl, rfl⟩⟩

theorem readingOf_ne_eof (d : Delivery UInt8 Interruption) : readingOf d ≠ .eof := by
  cases d with
  | line start bytes =>
    simp only [readingOf, lineOf]
    cases decodeUtf8 bytes with
    | none => nofun
    | some text => nofun
  | cut cause => cases cause <;> nofun

/-- Every line that is read and not blank is one the server sent, exactly when no line is torn. -/
theorem Serves.untorn_iff (h : incoming.Serves fromStr messages) :
    (∀ l, .line l ∈ incoming.readings → trim l.text.toList ≠ [] → SentLine messages l) ↔
      incoming.Untorn := by
  have hwhole := delivers_whole_iff (p := isNewline) h.arrived
    fun bytes => ∃ text, utf8 text = bytes ∧ trim text.toList ≠ []
  have hsent (l : StreamLine) : SentLine messages l ↔
      LineAt isNewline (streamOf messages) l.start (utf8 l.text) :=
    (lineAt_streamOf fun m hm => (h.sends m hm).1).symm
  constructor
  · intro hlines before cause text behind heq hline hword
    refine hwhole.mp ?_ before cause (utf8 text) behind heq hline ⟨text, rfl, hword⟩
    rintro s bytes hmem ⟨text', rfl, hword'⟩
    exact (hsent ⟨s, text'⟩).mp (hlines _ ((h.line_mem_readings ⟨s, text'⟩).mpr hmem) hword')
  · intro huntorn l hmem hword
    refine (hsent l).mpr (hwhole.mpr ?_ _ _ ((h.line_mem_readings l).mp hmem) ⟨l.text, rfl, hword⟩)
    rintro before cause bytes behind heq hline ⟨text, rfl, hword'⟩
    exact huntorn before cause text behind heq hline hword'

end Incoming

/-- **A run keeps the framing**: every line a round trip parses is a whole line the server sent, and no
round trip fails with a protocol error. -/
structure KeepsFraming (messages : List String)
    (log : List ((String × Json) × (Except McpError Json × List StreamLine))) : Prop where
  whole : ∀ ex ∈ log, ∀ l ∈ ex.2.2, SentLine messages l
  noProtocolError : ∀ ex ∈ log, ∀ e, ex.2.1 ≠ .error (.protocol e)

namespace McpConnection

theorem content_eq_blank {L : Type*} {fromStr : String → Except String Json} {text : L → String}
    {l : L} : content fromStr text l = .blank ↔ trim (text l).toList = [] := by
  unfold content
  by_cases h : trim (text l).toList = []
  · simp [h]
  · have hne : (trim (text l).toList).isEmpty = false := by simpa using h
    simp only [hne, Bool.false_eq_true, if_false, h, iff_false]
    split <;> nofun

/-- A line the server sent parses. -/
theorem content_sentLine {fromStr : String → Except String Json} {messages : List String}
    {l : StreamLine} (hl : SentLine messages l) (hsends : ∀ m ∈ messages, IsMessage fromStr m) :
    ∃ msg, content fromStr StreamLine.text l = .message msg := by
  obtain ⟨earlier, m, later, rfl, -, htext⟩ := hl
  obtain ⟨-, msg, hmsg⟩ := hsends m (List.mem_append_right _ List.mem_cons_self)
  refine ⟨msg, ?_⟩
  rw [← hmsg]
  simp only [content, htext, id]

section Runs

variable {fromStr : String → Except String Json} {messages : List String} {incoming : Incoming}
  (h : incoming.Serves fromStr messages)

include h

/-- What every run keeps to holds of all that is read: some run reads it all. -/
theorem sentLine_of_runs
    (hruns : ∀ writes calls, KeepsFraming messages
      ((rounds fromStr StreamLine.text).exchanges (fresh writes incoming.readings) calls))
    (l : StreamLine) (hl : .line l ∈ incoming.readings) (hword : trim l.text.toList ≠ []) :
    SentLine messages l := by
  have hmem : l ∈ worded fromStr StreamLine.text
      ((deliveries isNewline 0 [] incoming.arrivals).map Incoming.readingOf) := by
    refine mem_worded.mpr ⟨?_, fun hblank => hword (content_eq_blank.mp hblank)⟩
    exact (List.mem_append.mp hl).resolve_right (h.line_not_mem_atEnd l)
  have hnoEof : ∀ r ∈ (deliveries isNewline 0 [] incoming.arrivals).map Incoming.readingOf,
      r ≠ .eof := by
    intro r hr
    obtain ⟨d, -, rfl⟩ := List.mem_map.mp hr
    exact Incoming.readingOf_ne_eof d
  have hwrites : (fresh [] incoming.readings).writes = [] := rfl
  obtain ⟨ex, hex, hin⟩ :=
    mem_parsed_of_line_mem hwrites ("tools/call", .null) rfl hnoEof le_rfl hmem
  exact (hruns [] _).whole ex hex l hin

/-- When all that is read was sent, every run keeps the framing. -/
theorem keepsFraming_of_lines
    (hlines : ∀ l, .line l ∈ incoming.readings → trim l.text.toList ≠ [] → SentLine messages l)
    (writes : List (Option String)) (calls : List (String × Json)) :
    KeepsFraming messages
      ((rounds fromStr StreamLine.text).exchanges (fresh writes incoming.readings) calls) := by
  obtain ⟨front, hunread, hparsed⟩ :=
    rounds_use fromStr StreamLine.text (fresh writes incoming.readings) calls
  have hwhole : ∀ ex ∈ (rounds fromStr StreamLine.text).exchanges
      (fresh writes incoming.readings) calls, ∀ l ∈ ex.2.2, SentLine messages l := by
    intro ex hex l hl
    have hin : l ∈ worded fromStr StreamLine.text front :=
      hparsed ▸ List.mem_flatMap.mpr ⟨ex, hex, hl⟩
    obtain ⟨hfront, hword⟩ := mem_worded.mp hin
    apply hlines l
    · show .line l ∈ (fresh writes incoming.readings).unread
      rw [hunread]
      exact List.mem_append_left _ hfront
    · exact fun hnil => hword (content_eq_blank.mpr hnil)
  refine ⟨hwhole, ?_⟩
  intro ex hex e he
  obtain ⟨l, hl, hunparsable⟩ := exchange_unparsable hex he
  obtain ⟨msg, hmsg⟩ := content_sentLine (hwhole ex hex l hl) h.sends
  cases hmsg.symm.trans hunparsable

end Runs

/-- What stands behind the first byte of the answer. -/
def answerRest : String := "\"jsonrpc\":\"2.0\",\"id\":1,\"result\":\x7b\x7d\x7d"

/-- The answer to the probe of a server that knows the modern protocol. -/
def probeAnswer : String := "\x7b" ++ answerRest

def probeParser (s : String) : Except String Json :=
  if s = probeAnswer then
    .ok (.object [("jsonrpc", .string "2.0"), ("id", .number "1"), ("result", .object [])])
  else .error "trailing characters at line 1 column 10"

/-- The two round trips of `connect`. -/
def connectCalls : List (String × Json) :=
  [("server/discover", probeParams), ("initialize", initializeParams)]

/-- The answer comes whole, after the probe was given up. -/
def lateAnswer : Incoming :=
  ⟨[.interrupted .deadline, .bytes (utf8 (probeAnswer.push '\n'))], false⟩

/-- The probe is given up when the first byte of the answer is there. -/
def tornAnswer : Incoming :=
  ⟨[.bytes (utf8 "\x7b"), .interrupted .deadline, .bytes (utf8 (answerRest.push '\n'))], false⟩

theorem isMessage_probeAnswer : ∀ m ∈ [probeAnswer], IsMessage probeParser m := by
  intro m hm
  obtain rfl := List.mem_singleton.mp hm
  exact ⟨by decide, _, rfl⟩

theorem lateAnswer_serves : lateAnswer.Serves probeParser [probeAnswer] :=
  ⟨isMessage_probeAnswer, by decide, nofun⟩

theorem tornAnswer_serves : tornAnswer.Serves probeParser [probeAnswer] :=
  ⟨isMessage_probeAnswer, by decide, nofun⟩

theorem lateAnswer_untorn : lateAnswer.Untorn := by
  intro before cause text behind heq _ _
  cases before with
  | nil => exact endsIn_nil
  | cons b before =>
    -- behind the deadline there are bytes alone
    have hlate : lateAnswer.arrivals =
        .cut .deadline :: (utf8 (probeAnswer.push '\n')).map .item := by
      simp [Incoming.arrivals, lateAnswer, Piece.arrivals]
    rw [hlate] at heq
    have hcut : .cut cause ∈ (utf8 (probeAnswer.push '\n')).map (Arrival.item (ε := Interruption)) := by
      rw [(List.cons.inj heq).2]
      exact List.mem_append_right _ List.mem_cons_self
    obtain ⟨_, -, hitem⟩ := List.mem_map.mp hcut
    cases hitem

theorem tornAnswer_readings :
    tornAnswer.readings = [.deadline, .line ⟨1, answerRest.push '\n'⟩] := by
  have hdelivered : deliveries isNewline 0 [] tornAnswer.arrivals =
      [.cut .deadline, .line 1 (utf8 (answerRest.push '\n'))] := rfl
  rw [Incoming.readings, hdelivered]
  simp only [List.map, Incoming.readingOf, Incoming.lineOf, decodeUtf8_utf8]
  rfl

/-- **Framing over whole runs.** On the stream of a server that sends messages line by line, in whatever
fragments, the round trips of every run parse whole lines only, and none fails with a protocol error,
exactly when no read breaks off inside a line of which more comes in. -/
theorem framing_kept_iff {fromStr : String → Except String Json} {messages : List String}
    {incoming : Incoming} (h : incoming.Serves fromStr messages) :
    (∀ writes calls, KeepsFraming messages
      ((rounds fromStr StreamLine.text).exchanges (fresh writes incoming.readings) calls)) ↔
        incoming.Untorn := by
  rw [← h.untorn_iff]
  exact ⟨sentLine_of_runs h, keepsFraming_of_lines h⟩

theorem framing_kept_iff_sample :
    KeepsFraming [probeAnswer] ((rounds probeParser StreamLine.text).exchanges
      (fresh [] lateAnswer.readings) connectCalls) :=
  (framing_kept_iff lateAnswer_serves).mpr lateAnswer_untorn [] connectCalls

/-- The rest of the answer is parsed as the answer to `initialize`, and the connection fails. -/
theorem probe_timeout_breaks_framing :
    tornAnswer.Serves probeParser [probeAnswer] ∧
      (connect probeParser StreamLine.text [] tornAnswer.readings).1 =
        .error (.protocol "trailing characters at line 1 column 10") ∧
      ¬ KeepsFraming [probeAnswer] ((rounds probeParser StreamLine.text).exchanges
        (fresh [] tornAnswer.readings) connectCalls) := by
  refine ⟨tornAnswer_serves, ?_, ?_⟩
  · rw [tornAnswer_readings]
    rfl
  · rw [tornAnswer_readings]
    intro h
    exact h.noProtocolError _ (List.mem_cons_of_mem _ List.mem_cons_self)
      "trailing characters at line 1 column 10" rfl

end McpConnection

end GooseClaw
