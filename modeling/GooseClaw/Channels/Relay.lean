import GooseClaw.Channels.Moderation

/-!
# The relay channel

`crates/gooseclaw-channels/src/nostr_relay.rs`: what a drain does with the batch the transport hands
over. `drain` is a loop with three accumulators; `drainBatch_eq` reads its report as three passes
over the batch, one for each of them, and `RelayChannel.drain_accounts` says from there that
nothing is lost, duplicated, reordered or leaked.
-/

namespace GooseClaw

/-- One outbound chunk handed to the transport. -/
structure OutboundChunk where
  text : String
  index : UInt16
  total : UInt16
  deriving DecidableEq

/-- A transport failure. -/
inductive RelayError
  | transport (message : String)
  | signerOffline
  | oversized
  deriving DecidableEq

/-- The relay adapter boundary. -/
structure RelayTransport (R : Type) where
  /-- Inbound events since the previous drain. -/
  drainInbound : R → List InboundMessage × R
  /-- Send one already-approved chunk. -/
  sendChunk : R → SenderKey → OutboundChunk → Except RelayError Unit × R

/-- One quarantined inbound message. -/
structure QuarantinedMessage where
  sender : SenderKey
  text : String
  reason : ModerationReason
  receivedAtUnix : UInt64
  deriving DecidableEq

/-- The result of one drain cycle. -/
structure DrainReport where
  admitted : List InboundEnvelope
  quarantined : List QuarantinedMessage
  unknownSendersDropped : Nat
  deriving DecidableEq

/-- `DrainReport::default`. -/
def DrainReport.empty : DrainReport := ⟨[], [], 0⟩

/-- Channel behavior around one relay adapter. -/
structure RelayChannel (R : Type) where
  relay : R
  allowlist : InboundAllowlist
  outbox : List (SenderKey × OutboundChunk)

section Drain

variable (toLowercase : String → String)

/-- The body of the drain loop: file one message. -/
def DrainReport.file (al : InboundAllowlist) (report : DrainReport) (msg : InboundMessage) :
    DrainReport :=
  match al.admitMessage msg with
  | .ok env =>
    match moderate toLowercase env with
    | .admitted env' => { report with admitted := report.admitted ++ [env'] }
    | .quarantine _ reason =>
      { report with
        quarantined := report.quarantined ++ [⟨env.sender, env.text, reason, env.receivedAtUnix⟩] }
  | .error _ => { report with unknownSendersDropped := report.unknownSendersDropped + 1 }

/-- The drain loop. -/
def drainBatch (al : InboundAllowlist) (batch : List InboundMessage) : DrainReport :=
  batch.foldl (DrainReport.file toLowercase al) DrainReport.empty

/-- Drain inbound events through the canonical admission path. -/
def RelayChannel.drain {R : Type} (transport : RelayTransport R) (ch : RelayChannel R) :
    DrainReport × RelayChannel R :=
  let (batch, relay) := transport.drainInbound ch.relay
  (drainBatch toLowercase ch.allowlist batch, { ch with relay })

/-! ## One message -/

/-- An allowed sender whose sanitized text `moderate` admits. -/
def isAdmitted (al : InboundAllowlist) (msg : InboundMessage) : Bool :=
  al.isAllowed msg.sender && moderate toLowercase msg.sanitized == .admitted msg.sanitized

/-- An allowed sender's message that `moderate` holds back, with its reason. -/
def quarantined? (al : InboundAllowlist) (msg : InboundMessage) : Option QuarantinedMessage :=
  if al.isAllowed msg.sender then
    (moderate toLowercase msg.sanitized).reason?.map fun reason =>
      ⟨msg.sender, stripInvisible msg.text, reason, msg.receivedAtUnix⟩
  else none

/-- **A message is filed in exactly one place**, the one its sender and the verdict on its sanitized
text name. -/
theorem DrainReport.file_cases (al : InboundAllowlist) (report : DrainReport)
    (msg : InboundMessage) :
    (al.isAllowed msg.sender = false ∧ isAdmitted toLowercase al msg = false ∧
      quarantined? toLowercase al msg = none ∧ report.file toLowercase al msg =
        { report with unknownSendersDropped := report.unknownSendersDropped + 1 }) ∨
    (al.isAllowed msg.sender = true ∧ isAdmitted toLowercase al msg = true ∧
      quarantined? toLowercase al msg = none ∧ report.file toLowercase al msg =
        { report with admitted := report.admitted ++ [msg.sanitized] }) ∨
    ∃ q, al.isAllowed msg.sender = true ∧ isAdmitted toLowercase al msg = false ∧
      quarantined? toLowercase al msg = some q ∧ report.file toLowercase al msg =
        { report with quarantined := report.quarantined ++ [q] } := by
  cases hal : al.isAllowed msg.sender with
  | false =>
    refine .inl ⟨rfl, ?_, ?_, ?_⟩
    · simp only [isAdmitted, hal, Bool.false_and]
    · simp only [quarantined?, hal, Bool.false_eq_true, if_false]
    · simp only [file, InboundAllowlist.admitMessage_unknown hal]
  | true =>
    rcases moderate_cases toLowercase msg.sanitized with hm | ⟨reason, hm⟩
    · refine .inr (.inl ⟨rfl, ?_, ?_, ?_⟩)
      · simp only [isAdmitted, hal, hm, Bool.true_and, beq_self_eq_true]
      · simp only [quarantined?, hm, Verdict.reason?, Option.map_none, ite_self]
      · simp only [file, InboundAllowlist.admitMessage_allowed hal, hm]
    · refine .inr (.inr ⟨⟨msg.sender, stripInvisible msg.text, reason, msg.receivedAtUnix⟩, rfl,
        ?_, ?_, ?_⟩)
      · rw [isAdmitted, hal, hm, Bool.true_and]
        exact beq_eq_false_iff_ne.mpr nofun
      · simp only [quarantined?, hal, hm, Verdict.reason?, Option.map_some, if_true]
      · simp only [file, InboundAllowlist.admitMessage_allowed hal, hm]
        rfl

/-! ## The batch -/

/-- The loop appends to each accumulator what its own pass over the batch finds. -/
theorem foldl_file (al : InboundAllowlist) (report : DrainReport) (batch : List InboundMessage) :
    batch.foldl (DrainReport.file toLowercase al) report =
      { admitted := report.admitted ++
          (batch.filter (isAdmitted toLowercase al)).map InboundMessage.sanitized
        quarantined := report.quarantined ++ batch.filterMap (quarantined? toLowercase al)
        unknownSendersDropped := report.unknownSendersDropped +
          batch.countP (fun msg => !al.isAllowed msg.sender) } := by
  induction batch generalizing report with
  | nil => simp
  | cons msg batch ih =>
    rw [List.foldl_cons, ih]
    rcases DrainReport.file_cases toLowercase al report msg with
      ⟨hal, hadm, hq, hfile⟩ | ⟨hal, hadm, hq, hfile⟩ | ⟨q, hal, hadm, hq, hfile⟩
    · simp [hfile, hal, hadm, hq, Nat.add_right_comm _ 1, Nat.add_assoc]
    · simp [hfile, hal, hadm, hq]
    · simp [hfile, hal, hadm, hq]

theorem drainBatch_eq (al : InboundAllowlist) (batch : List InboundMessage) :
    drainBatch toLowercase al batch =
      { admitted := (batch.filter (isAdmitted toLowercase al)).map InboundMessage.sanitized
        quarantined := batch.filterMap (quarantined? toLowercase al)
        unknownSendersDropped := batch.countP (fun msg => !al.isAllowed msg.sender) } := by
  rw [drainBatch, foldl_file]
  simp [DrainReport.empty]

/-- Of the three places, a message has exactly one. -/
theorem places_eq_one (al : InboundAllowlist) (msg : InboundMessage) :
    (isAdmitted toLowercase al msg).toNat + (quarantined? toLowercase al msg).isSome.toNat +
      (!al.isAllowed msg.sender).toNat = 1 := by
  rcases DrainReport.file_cases toLowercase al .empty msg with
    ⟨hal, hadm, hq, -⟩ | ⟨hal, hadm, hq, -⟩ | ⟨q, hal, hadm, hq, -⟩
  · rw [hal, hadm, hq]
    rfl
  · rw [hal, hadm, hq]
    rfl
  · rw [hal, hadm, hq]
    rfl

/-- The three sizes sum to the size of the batch. -/
theorem drainBatch_sizes (al : InboundAllowlist) (batch : List InboundMessage) :
    (drainBatch toLowercase al batch).admitted.length +
      (drainBatch toLowercase al batch).quarantined.length +
      (drainBatch toLowercase al batch).unknownSendersDropped = batch.length := by
  rw [drainBatch_eq]
  induction batch with
  | nil => rfl
  | cons msg batch ih =>
    simp only [List.length_map, List.filter_cons, List.filterMap_cons, List.countP_cons,
      List.length_cons] at ih ⊢
    rcases DrainReport.file_cases toLowercase al .empty msg with
      ⟨hal, hadm, hq, -⟩ | ⟨hal, hadm, hq, -⟩ | ⟨q, hal, hadm, hq, -⟩
    · simp only [hal, hadm, hq, Bool.not_false, Bool.false_eq_true, if_true, if_false]
      omega
    · simp only [hal, hadm, hq, Bool.not_true, Bool.false_eq_true, if_true, if_false,
        List.length_cons]
      omega
    · simp only [hal, hadm, hq, Bool.not_true, Bool.false_eq_true, if_false, List.length_cons]
      omega

/-- Two batches that differ only in what unknown senders wrote, and when. -/
def SameForAllowed (al : InboundAllowlist) : List InboundMessage → List InboundMessage → Prop :=
  List.Forall₂ fun msg msg' =>
    msg'.sender = msg.sender ∧ (al.isAllowed msg.sender = true → msg' = msg)

/-- What unknown senders wrote reaches nothing. -/
theorem drainBatch_congr {al : InboundAllowlist} {batch batch' : List InboundMessage}
    (h : SameForAllowed al batch batch') :
    drainBatch toLowercase al batch' = drainBatch toLowercase al batch := by
  unfold drainBatch
  generalize DrainReport.empty = report
  induction h generalizing report with
  | nil => rfl
  | cons hmsg _ ih =>
    obtain ⟨hsender, hsame⟩ := hmsg
    rw [List.foldl_cons, List.foldl_cons, ih]
    congr 1
    rename_i msg msg' _ _ _
    cases hal : al.isAllowed msg.sender with
    | true => rw [hsame hal]
    | false =>
      have hal' : al.isAllowed msg'.sender = false := hsender ▸ hal
      simp only [DrainReport.file, InboundAllowlist.admitMessage_unknown hal,
        InboundAllowlist.admitMessage_unknown hal']

/-! ## The report -/

/-- An admitted entry is the sanitized image of an allowed sender's message that `moderate`
admits. -/
theorem of_mem_admitted {al : InboundAllowlist} {batch : List InboundMessage}
    {env : InboundEnvelope} (h : env ∈ (drainBatch toLowercase al batch).admitted) :
    ∃ msg ∈ batch, al.isAllowed msg.sender = true ∧ env = msg.sanitized ∧
      moderate toLowercase env = .admitted env := by
  rw [drainBatch_eq] at h
  obtain ⟨msg, hmem, rfl⟩ := List.mem_map.mp h
  obtain ⟨hbatch, hadm⟩ := List.mem_filter.mp hmem
  obtain ⟨hal, hmod⟩ := Bool.and_eq_true_iff.mp hadm
  exact ⟨msg, hbatch, hal, rfl, beq_iff_eq.mp hmod⟩

/-- A quarantined entry is the sanitized image of an allowed sender's message, with the reason
`moderate` gives. -/
theorem of_mem_quarantined {al : InboundAllowlist} {batch : List InboundMessage}
    {q : QuarantinedMessage} (h : q ∈ (drainBatch toLowercase al batch).quarantined) :
    ∃ msg ∈ batch, al.isAllowed msg.sender = true ∧
      (⟨q.sender, q.text, q.receivedAtUnix⟩ : InboundEnvelope) = msg.sanitized ∧
      moderate toLowercase msg.sanitized = .quarantine q.sender q.reason := by
  rw [drainBatch_eq] at h
  obtain ⟨msg, hbatch, hq⟩ := List.mem_filterMap.mp h
  cases hal : al.isAllowed msg.sender with
  | false => simp [quarantined?, hal] at hq
  | true =>
    rw [quarantined?, if_pos hal] at hq
    obtain ⟨reason, hreason, rfl⟩ := Option.map_eq_some_iff.mp hq
    refine ⟨msg, hbatch, hal, rfl, ?_⟩
    rcases moderate_cases toLowercase msg.sanitized with hm | ⟨reason', hm⟩
    · rw [hm] at hreason
      cases hreason
    · rw [hm] at hreason ⊢
      cases hreason
      rfl

/-- **A drain accounts for every message.** For every transport, channel and text function: each
message of the batch has one of three places and the sizes sum to the batch's; the two lists are the
batch's messages of their kind, sanitized, in batch order; every listed message is an allowed
sender's and carries the verdict of `moderate` on its sanitized text; and a drain of a batch in which
unknown senders wrote something else, some other time, gives the same report. -/
theorem RelayChannel.drain_accounts {R : Type} (transport : RelayTransport R)
    (ch : RelayChannel R) :
    let batch := (transport.drainInbound ch.relay).1
    let report := (ch.drain toLowercase transport).1
    (∀ msg, (isAdmitted toLowercase ch.allowlist msg).toNat +
      (quarantined? toLowercase ch.allowlist msg).isSome.toNat +
      (!ch.allowlist.isAllowed msg.sender).toNat = 1) ∧
    report.admitted.length + report.quarantined.length + report.unknownSendersDropped =
      batch.length ∧
    report.admitted =
      (batch.filter (isAdmitted toLowercase ch.allowlist)).map InboundMessage.sanitized ∧
    report.quarantined = batch.filterMap (quarantined? toLowercase ch.allowlist) ∧
    report.unknownSendersDropped = batch.countP (fun msg => !ch.allowlist.isAllowed msg.sender) ∧
    (∀ env ∈ report.admitted, ∃ msg ∈ batch, ch.allowlist.isAllowed msg.sender = true ∧
      env = msg.sanitized ∧ moderate toLowercase env = .admitted env) ∧
    (∀ q ∈ report.quarantined, ∃ msg ∈ batch, ch.allowlist.isAllowed msg.sender = true ∧
      (⟨q.sender, q.text, q.receivedAtUnix⟩ : InboundEnvelope) = msg.sanitized ∧
      moderate toLowercase msg.sanitized = .quarantine q.sender q.reason) ∧
    ∀ relay' : R, SameForAllowed ch.allowlist batch (transport.drainInbound relay').1 →
      (({ ch with relay := relay' }).drain toLowercase transport).1 = report := by
  refine ⟨places_eq_one toLowercase ch.allowlist, drainBatch_sizes toLowercase ch.allowlist _,
    ?_, ?_, ?_, fun env h => of_mem_admitted toLowercase h,
    fun q h => of_mem_quarantined toLowercase h, fun relay' h => drainBatch_congr toLowercase h⟩
  · exact congrArg DrainReport.admitted (drainBatch_eq toLowercase ch.allowlist _)
  · exact congrArg DrainReport.quarantined (drainBatch_eq toLowercase ch.allowlist _)
  · exact congrArg DrainReport.unknownSendersDropped (drainBatch_eq toLowercase ch.allowlist _)

end Drain

end GooseClaw
