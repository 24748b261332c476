import GooseClaw.Vault.Waiting

/-!
# Probe and handshake

`McpConnection::connect`: the era probe, whatever becomes of it, is followed by `initialize` on the same
streams. The probe leaves a different amount of input unread in each of its outcomes
(`ProbeOver`), among it perhaps its own late answer, which carries another id and is passed over.
`connect_handshake` states what the connection comes to.
-/

namespace GooseClaw

namespace McpConnection

variable {L : Type*} (fromStr : String → Except String Json) (text : L → String)

/-! ## Outcomes -/

/-- The probe, which has id 1, is over and `rest` is what it left unread: it was answered, or it broke
off at an unparsable line, a failed read, the end of the stream or its deadline. -/
def ProbeOver (stream rest : List (Reading L)) : Prop :=
  (∃ l msg, FirstAnswer fromStr text 1 stream l msg rest) ∨
    ∃ e, Broken fromStr text 1 stream e rest

/-- The probe was answered with a result, or with the one error a modern server gives. -/
def ProbeModern (stream rest : List (Reading L)) : Prop :=
  ∃ l msg, FirstAnswer fromStr text 1 stream l msg rest ∧
    ∀ err, msg.get "error" = some err → errorCode err = UNSUPPORTED_PROTOCOL_VERSION

/-- A result whose `protocolVersion` is the legacy one. -/
def ServesLegacy (msg : Json) : Prop :=
  msg.get "error" = none ∧
    ∃ result, msg.get "result" = some result ∧ result.getStr "protocolVersion" = some LEGACY_VERSION

/-- The first message with id 2 in `rest` is such a result. -/
def Initialized (rest : List (Reading L)) : Prop :=
  ∃ l msg rest', FirstAnswer fromStr text 2 rest l msg rest' ∧ ServesLegacy msg

def discoverMessage : Json := requestMessage 1 "server/discover" probeParams

def initializeMessage : Json := requestMessage 2 "initialize" initializeParams

def initializedMessage : Json := notificationMessage "notifications/initialized" (.object [])

variable {fromStr text}

/-! ## The probe -/

theorem awaitAnswer_probeOver {stream rest : List (Reading L)}
    (h : ProbeOver fromStr text stream rest) : (awaitAnswer fromStr text 1 stream).2 = rest := by
  rcases h with ⟨l, msg, hfirst⟩ | ⟨e, hbroken⟩
  · rw [awaitAnswer_first hfirst]
  · rw [awaitAnswer_broken hbroken]

theorem probeOver_awaitAnswer (fromStr : String → Except String Json) (text : L → String)
    (stream : List (Reading L)) :
    ProbeOver fromStr text stream (awaitAnswer fromStr text 1 stream).2 := by
  rcases wait_cases fromStr text 1 stream with ⟨l, msg, rest, hfirst⟩ | ⟨e, rest, hbroken⟩
  · rw [awaitAnswer_first hfirst]
    exact .inl ⟨l, msg, hfirst⟩
  · rw [awaitAnswer_broken hbroken]
    exact .inr ⟨e, hbroken⟩

theorem isDualEraAware_answer (msg : Json) :
    (eraOf (answer msg)).isDualEraAware = true ↔
      ∀ err, msg.get "error" = some err → errorCode err = UNSUPPORTED_PROTOCOL_VERSION := by
  unfold answer
  cases msg.get "error" with
  | none => exact iff_of_true rfl nofun
  | some err =>
    by_cases hcode : errorCode err = UNSUPPORTED_PROTOCOL_VERSION
    · simp only [eraOf, hcode, if_true, ServerEra.isDualEraAware, Option.some.injEq, forall_eq']
    · simp only [eraOf, hcode, if_false, ServerEra.isDualEraAware, Option.some.injEq, forall_eq',
        Bool.false_eq_true]

/-- The era is read off the probe's outcome. -/
theorem isDualEraAware_eraOf (stream : List (Reading L)) :
    (eraOf (awaitAnswer fromStr text 1 stream).1).isDualEraAware = true ↔
      ProbeModern fromStr text stream (awaitAnswer fromStr text 1 stream).2 := by
  rcases wait_cases fromStr text 1 stream with ⟨l, msg, rest, hfirst⟩ | ⟨e, rest, hbroken⟩
  · rw [awaitAnswer_first hfirst, isDualEraAware_answer]
    constructor
    · exact fun hcode => ⟨l, msg, hfirst, hcode⟩
    · rintro ⟨l', msg', hfirst', hcode⟩
      rw [hfirst.unique hfirst']
      exact hcode
  · have hlegacy : (eraOf (.error e)).isDualEraAware = false := by
      obtain ⟨_, _, _, _, hbreaks⟩ := hbroken
      cases hbreaks <;> rfl
    rw [awaitAnswer_broken hbroken, hlegacy]
    refine iff_of_false Bool.false_ne_true ?_
    rintro ⟨l, msg, hfirst, -⟩
    exact hbroken.not_first hfirst

/-! ## The handshake -/

/-- What `connect` reads from a message without an error. -/
theorem servesLegacy_iff {msg : Json} (h : msg.get "error" = none) :
    ServesLegacy msg ↔
      ((msg.get "result").getD .null).getStr "protocolVersion" = some LEGACY_VERSION := by
  unfold ServesLegacy
  cases msg.get "result" with
  | none =>
    refine iff_of_false ?_ nofun
    rintro ⟨-, result, hnone, -⟩
    cases hnone
  | some result =>
    constructor
    · rintro ⟨-, result', hresult, hversion⟩
      cases hresult
      exact hversion
    · exact fun hversion => ⟨h, result, rfl, hversion⟩

theorem FirstAnswer.initialized_iff {rest rest' : List (Reading L)} {l : L} {msg : Json}
    (h : FirstAnswer fromStr text 2 rest l msg rest') :
    Initialized fromStr text rest ↔ ServesLegacy msg := by
  constructor
  · rintro ⟨l', msg', _, hfirst, hserves⟩
    rw [h.unique hfirst]
    exact hserves
  · exact fun hserves => ⟨l, msg, rest', h, hserves⟩

variable (fromStr text) in
/-- `initialize` is sent, and the connection is returned when its answer serves the legacy version. -/
theorem handshake_cases {conn : McpConnection L} (hwrites : conn.writes = [])
    (hid : conn.nextId = 1) :
    (∃ conn', handshake fromStr text conn = (.ok conn', conn') ∧ conn'.era = conn.era ∧
      conn'.sent = conn.sent ++ [initializeMessage, initializedMessage] ∧
      Initialized fromStr text conn.unread) ∨
    ∃ e conn', handshake fromStr text conn = (.error e, conn') ∧
      conn'.sent = conn.sent ++ [initializeMessage] ∧ ¬ Initialized fromStr text conn.unread := by
  have hnext : conn.nextId + 1 = 2 := by
    rw [hid]
    rfl
  unfold handshake
  rw [roundtrip_writable (writable_of_nil hwrites), hnext]
  rcases wait_cases fromStr text 2 conn.unread with ⟨l, msg, rest, hfirst⟩ | ⟨e, rest, hbroken⟩
  · rw [awaitAnswer_first hfirst, hfirst.initialized_iff]
    unfold answer
    cases herror : msg.get "error" with
    | some err =>
      refine .inr ⟨_, _, rfl, rfl, ?_⟩
      rintro ⟨hnone, -⟩
      cases herror.symm.trans hnone
    | none =>
      rw [servesLegacy_iff herror]
      dsimp only
      cases hversion : ((msg.get "result").getD .null).getStr "protocolVersion" with
      | none => exact .inr ⟨_, _, rfl, rfl, nofun⟩
      | some negotiated =>
        by_cases hlegacy : negotiated = LEGACY_VERSION
        · subst hlegacy
          left
          dsimp only
          rw [if_neg (not_not_intro rfl), notify,
            sendValue_writable (writable_of_nil (congrArg List.tail hwrites))]
          exact ⟨_, rfl, rfl, List.append_assoc _ _ _, rfl⟩
        · right
          dsimp only
          rw [if_pos hlegacy]
          exact ⟨_, _, rfl, rfl, fun hsome => hlegacy (Option.some.inj hsome)⟩
  · rw [awaitAnswer_broken hbroken]
    exact .inr ⟨e, _, rfl, rfl, fun ⟨l, msg, rest', hfirst, _⟩ => hbroken.not_first hfirst⟩

/-! ## The connection -/

theorem initializeMessage_mem_handshake {conn : McpConnection L} (hwrites : conn.writes = [])
    (hid : conn.nextId = 1) : initializeMessage ∈ (handshake fromStr text conn).2.sent := by
  rcases handshake_cases fromStr text hwrites hid with
    ⟨conn', heq, -, hsent, -⟩ | ⟨e, conn', heq, hsent, -⟩
  · rw [heq, hsent]
    exact List.mem_append_right _ List.mem_cons_self
  · rw [heq, hsent]
    exact List.mem_append_right _ List.mem_cons_self

/-- `initialize` is sent whatever becomes of the probe, also when it is not written. -/
theorem initializeMessage_mem_sent (write : Option String) (stream : List (Reading L)) :
    initializeMessage ∈ (connect fromStr text [write] stream).2.sent := by
  cases write with
  | some e => exact initializeMessage_mem_handshake rfl rfl
  | none =>
    have hwritable : (fresh [none] stream).Writable := nofun
    unfold connect
    rw [roundtrip_writable hwritable]
    exact initializeMessage_mem_handshake rfl rfl

variable (fromStr text) in
/-- The connection behind a probe that was written. -/
def probed (stream : List (Reading L)) : McpConnection L where
  unread := (awaitAnswer fromStr text 1 stream).2
  writes := []
  sent := [discoverMessage]
  nextId := 1
  era := eraOf (awaitAnswer fromStr text 1 stream).1
  negotiatedVersion := ""

theorem connect_eq (stream : List (Reading L)) :
    connect fromStr text [] stream = handshake fromStr text (probed fromStr text stream) := by
  unfold connect
  rw [roundtrip_writable (writable_of_nil rfl)]
  rfl

/-- A late answer of the probe makes no difference to the handshake. -/
theorem initialized_insert {l : L} {msg : Json} (hmsg : content fromStr text l = .message msg)
    (hid : messageId msg = some 1) (front behind : List (Reading L)) :
    Initialized fromStr text (front ++ .line l :: behind) ↔
      Initialized fromStr text (front ++ behind) := by
  have hover : PassedOver fromStr text 2 (.line l) := by
    refine ⟨l, rfl, .inr ⟨msg, hmsg, ?_⟩⟩
    rw [hid]
    decide
  have hinsert := firstAnswer_insert hover front behind
  constructor
  · rintro ⟨l', msg', rest, hfirst, hserves⟩
    obtain ⟨l'', rest', hfirst'⟩ := (hinsert msg').mp ⟨l', rest, hfirst⟩
    exact ⟨l'', msg', rest', hfirst', hserves⟩
  · rintro ⟨l', msg', rest, hfirst, hserves⟩
    obtain ⟨l'', rest', hfirst'⟩ := (hinsert msg').mpr ⟨l', rest, hfirst⟩
    exact ⟨l'', msg', rest', hfirst', hserves⟩

/-- **The handshake.** Whatever becomes of the probe, `initialize` is sent. With every write going
through, the connection is returned exactly when the first message with id 2 behind the probe is a result
of the legacy version; the era is the probe's, a late answer of the probe makes no difference, and the
messages are the three of the protocol, in order. -/
theorem connect_handshake (fromStr : String → Except String Json) (text : L → String)
    (stream : List (Reading L)) :
    (∀ write, initializeMessage ∈ (connect fromStr text [write] stream).2.sent) ∧
    ∃ rest, ProbeOver fromStr text stream rest ∧
      (∀ other, ProbeOver fromStr text stream other → other = rest) ∧
      ((∃ conn, (connect fromStr text [] stream).1 = .ok conn) ↔ Initialized fromStr text rest) ∧
      (∀ conn, (connect fromStr text [] stream).1 = .ok conn →
        (conn.era.isDualEraAware = true ↔ ProbeModern fromStr text stream rest) ∧
        conn.sent = [discoverMessage, initializeMessage, initializedMessage]) ∧
      ∀ front l msg behind, rest = front ++ .line l :: behind →
        content fromStr text l = .message msg → messageId msg = some 1 →
          (Initialized fromStr text rest ↔ Initialized fromStr text (front ++ behind)) := by
  have hcases : _ ∨ _ := @handshake_cases L fromStr text (probed fromStr text stream) rfl rfl
  refine ⟨fun write => initializeMessage_mem_sent write stream, _,
    probeOver_awaitAnswer fromStr text stream, ?_, ?_, ?_, ?_⟩
  · exact fun other hother => (awaitAnswer_probeOver hother).symm
  · rw [connect_eq]
    rcases hcases with ⟨conn, heq, -, -, hinit⟩ | ⟨e, conn, heq, -, hinit⟩
    · rw [heq]
      exact iff_of_true ⟨conn, rfl⟩ hinit
    · rw [heq]
      exact iff_of_false (by rintro ⟨_, h⟩; cases h) hinit
  · rw [connect_eq]
    rcases hcases with ⟨conn, heq, hera, hsent, -⟩ | ⟨e, conn, heq, -, -⟩
    · rw [heq]
      rintro _ h
      cases h
      rw [hera, hsent]
      exact ⟨isDualEraAware_eraOf stream, rfl⟩
    · rw [heq]
      rintro _ h
      cases h
  · intro front l msg behind hrest hmsg hid
    rw [hrest]
    exact initialized_insert hmsg hid front behind

end McpConnection

end GooseClaw
