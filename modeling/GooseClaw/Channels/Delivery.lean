import GooseClaw.Channels.Outbound

/-!
# Delivery

What a run of `queue_approved` calls leaves in the outbox and with the transport. The two always
agree, and a call that reports `Sent` has handed over one whole train
(`RelayChannel.runs_hand_over_trains`).

A call that fails is another matter. The module promises that nothing is sent then. The loop keeps
that promise when the transport refuses the first chunk; a refusal further on leaves the front of a
train with the recipient, and a retry sends it again (`RelayChannel.failed_sends_leave_nothing_iff`).
-/

namespace GooseClaw

open Found

variable {R : Type}

/-! ## Trains -/

/-- Between the two records the transport was handed one whole train of `n` chunks, which joined are
the text. -/
def HandedOver (msg : ApprovedMessage) (n : Nat) (before after : List Handover) : Prop :=
  ∃ train : List OutboundChunk, after = before ++ train.map (.accepted msg.recipient) ∧
    train.length = n ∧ (∀ i chunk, train[i]? = some chunk → ChunkOk i n chunk) ∧
    String.join (train.map OutboundChunk.text) = msg.text

/-- A text over the cap never reaches the transport. -/
theorem RelayChannel.queueApproved_oversized (transport : RelayTransport R)
    (ch : RelayChannel (R × List Handover)) {msg : ApprovedMessage}
    (h : (utf8 msg.text).length > MAX_MESSAGE_BYTES) :
    ch.queueApproved transport.recorded msg = (.error .oversized, ch) :=
  if_pos h

theorem RelayChannel.queueApproved_sent (transport : RelayTransport R)
    (ch : RelayChannel (R × List Handover)) {msg : ApprovedMessage} {n : Nat}
    (h : (ch.queueApproved transport.recorded msg).1 = .ok (.sent n)) :
    HandedOver msg n ch.relay.2 (ch.queueApproved transport.recorded msg).2.relay.2 := by
  rcases ch.queueApproved_cases transport msg with
    ⟨-, heq⟩ | ⟨hsize, relay, -, heq⟩ | ⟨-, front, chunk, rest, e, relay, -, -, heq⟩
  · rw [heq] at h
    cases h
  · rw [heq] at h ⊢
    cases h
    obtain ⟨hchunks, htext⟩ := train_spec hsize
    exact ⟨train msg.text, List.append_nil _, rfl, hchunks, htext⟩
  · rw [heq] at h
    cases h

theorem RelayChannel.queueApproved_outbox (transport : RelayTransport R)
    {ch : RelayChannel (R × List Handover)} (h : ch.outbox = acceptedOf ch.relay.2)
    (msg : ApprovedMessage) :
    (ch.queueApproved transport.recorded msg).2.outbox =
      acceptedOf (ch.queueApproved transport.recorded msg).2.relay.2 := by
  rcases ch.queueApproved_cases transport msg with
    ⟨-, heq⟩ | ⟨-, relay, -, heq⟩ | ⟨-, front, chunk, rest, e, relay, -, -, heq⟩
  · rw [heq]
    exact h
  · rw [heq]
    exact outbox_grown h rfl
  · rw [heq]
    exact outbox_grown h rfl

/-- **Outbound trains are well formed** in every run, whatever the transport answers. The outbox is
what the transport accepted, no text over the cap is handed over, and each call that reports `Sent`
has handed over one whole train. -/
theorem RelayChannel.runs_hand_over_trains (transport : RelayTransport R) (relay : R)
    (allowlist : InboundAllowlist) (calls : List ApprovedMessage) :
    let S := outbound transport.recorded
    let start := RelayChannel.new (relay, []) allowlist
    (S.after start calls).outbox = acceptedOf (S.after start calls).relay.2 ∧
      S.Along start (fun ch msg =>
        ((utf8 msg.text).length > MAX_MESSAGE_BYTES →
          (S.handle ch msg).2.relay.2 = ch.relay.2) ∧
        ∀ n, (S.handle ch msg).1 = .ok (.sent n) →
          HandedOver msg n ch.relay.2 (S.handle ch msg).2.relay.2) calls := by
  intro S start
  constructor
  · refine S.history (P := fun _ ch => ch.outbox = acceptedOf ch.relay.2) rfl ?_ calls
    intro _ ch msg h
    exact queueApproved_outbox transport h msg
  · intro before msg later _
    constructor
    · intro hsize
      exact congrArg (fun r => r.2.relay.2) (queueApproved_oversized transport _ hsize)
    · intro n hsent
      exact queueApproved_sent transport _ hsent

/-! ## Failed calls -/

/-- A call that fails leaves the outbox as it was, and the transport with no chunk more. -/
def LeavesNothing (transport : RelayTransport R) (ch : RelayChannel (R × List Handover))
    (msg : ApprovedMessage) : Prop :=
  ∀ e, (ch.queueApproved transport.recorded msg).1 = .error e →
    (ch.queueApproved transport.recorded msg).2.outbox = ch.outbox ∧
      acceptedOf (ch.queueApproved transport.recorded msg).2.relay.2 = acceptedOf ch.relay.2

/-- The transport takes every chunk of the train or refuses the first one. -/
def WholeOrNothing (transport : RelayTransport R) (relay : R) (msg : ApprovedMessage) : Prop :=
  (∀ a ∈ transport.offer msg.recipient relay (train msg.text), a.2 = .ok ()) ∨
    ∀ a ∈ transport.offer msg.recipient relay (train msg.text), a.2 ≠ .ok ()

theorem error_ne_ok (e : RelayError) : (.error e : Except RelayError Unit) ≠ .ok () := by
  intro h
  cases h

/-- **When a failed call leaves nothing behind.** -/
theorem leavesNothing_iff (transport : RelayTransport R) (ch : RelayChannel (R × List Handover))
    (msg : ApprovedMessage) :
    LeavesNothing transport ch msg ↔
      ((utf8 msg.text).length ≤ MAX_MESSAGE_BYTES → WholeOrNothing transport ch.relay.1 msg) := by
  unfold LeavesNothing WholeOrNothing
  rcases ch.queueApproved_cases transport msg with
    ⟨hsize, heq⟩ | ⟨hsize, relay, hoff, heq⟩ | ⟨hsize, front, chunk, rest, e, relay, -, hoff, heq⟩
  · rw [heq]
    exact iff_of_true (fun _ _ => ⟨rfl, rfl⟩) fun h => absurd h (Nat.not_le.mpr hsize)
  · rw [heq, hoff]
    refine iff_of_true ?_ fun _ => .inl ?_
    · intro e he
      cases he
    · intro a ha
      obtain ⟨c, -, rfl⟩ := List.mem_map.mp ha
      rfl
  · rw [heq, hoff]
    cases front with
    | nil =>
      refine iff_of_true ?_ fun _ => .inr ?_
      · intro _ _
        simp only [RelayChannel.grown, List.map_nil, List.append_nil, acceptedOf_append, true_and]
        exact List.append_nil _
      · intro a ha
        rw [List.map_nil, List.nil_append, List.mem_singleton] at ha
        rw [ha]
        exact error_ne_ok e
    | cons c front =>
      refine iff_of_false ?_ ?_
      · -- the outbox has grown by the front of the train
        intro h
        have hgrown := congrArg List.length (h e rfl).1
        simp only [RelayChannel.grown, List.map_cons, List.length_append, List.length_cons] at hgrown
        omega
      · intro h
        rcases h hsize with h | h
        · exact error_ne_ok e (h _ (List.mem_append_right _ (List.mem_singleton_self _)))
        · exact h _ (List.mem_append_left _ List.mem_cons_self) rfl

/-! ## What a recipient reads -/

/-- The chunks for a recipient, joined. -/
def textsTo (recipient : SenderKey) (outbox : List (SenderKey × OutboundChunk)) : String :=
  String.join (outbox.filterMap fun p => if p.1 = recipient then some p.2.text else none)

/-- The texts for a recipient whose calls reported `Sent`, joined. -/
def sentTo (recipient : SenderKey)
    (exchanges : List (ApprovedMessage × Except RelayError SendOutcome)) : String :=
  String.join (exchanges.filterMap fun x =>
    match x.2 with
    | .ok _ => if x.1.recipient = recipient then some x.1.text else none
    | .error _ => none)

theorem textsTo_append (recipient : SenderKey) (outbox more : List (SenderKey × OutboundChunk)) :
    textsTo recipient (outbox ++ more) = textsTo recipient outbox ++ textsTo recipient more := by
  rw [textsTo, List.filterMap_append, String.join_append, textsTo, textsTo]

/-- A train reads as its text, to its recipient. -/
theorem textsTo_train (recipient : SenderKey) {msg : ApprovedMessage}
    (h : (utf8 msg.text).length ≤ MAX_MESSAGE_BYTES) :
    textsTo recipient ((train msg.text).map (msg.recipient, ·)) =
      if msg.recipient = recipient then msg.text else "" := by
  unfold textsTo
  rw [List.filterMap_map]
  split
  · next hr =>
    have hall : (fun p : SenderKey × OutboundChunk =>
        if p.1 = recipient then some p.2.text else none) ∘ (msg.recipient, ·) =
          some ∘ OutboundChunk.text := by
      funext chunk
      simp only [Function.comp, hr, if_true]
    rw [hall, List.filterMap_eq_map, (train_spec h).2]
  · next hr =>
    have hnone : (fun p : SenderKey × OutboundChunk =>
        if p.1 = recipient then some p.2.text else none) ∘ (msg.recipient, ·) =
          fun _ => none := by
      funext chunk
      simp only [Function.comp, hr, if_false]
    rw [hnone]
    simp

/-- One more call that leaves nothing on failure keeps the two texts the same. -/
theorem textsTo_queueApproved {transport : RelayTransport R}
    {ch : RelayChannel (R × List Handover)} {msg : ApprovedMessage} {recipient : SenderKey}
    {exchanges : List (ApprovedMessage × Except RelayError SendOutcome)}
    (hleaves : LeavesNothing transport ch msg)
    (h : textsTo recipient ch.outbox = sentTo recipient exchanges) :
    textsTo recipient (ch.queueApproved transport.recorded msg).2.outbox =
      sentTo recipient (exchanges ++ [(msg, (ch.queueApproved transport.recorded msg).1)]) := by
  have hsplit : ∀ reply, sentTo recipient (exchanges ++ [(msg, reply)]) =
      sentTo recipient exchanges ++ sentTo recipient [(msg, reply)] := by
    intro reply
    rw [sentTo, List.filterMap_append, String.join_append, sentTo, sentTo]
  rw [hsplit, ← h]
  rcases ch.queueApproved_cases transport msg with
    ⟨-, heq⟩ | ⟨hsize, relay, -, heq⟩ | ⟨-, front, chunk, rest, e, relay, -, -, heq⟩
  · rw [heq]
    exact String.append_empty.symm
  · rw [heq]
    simp only [RelayChannel.grown]
    rw [textsTo_append, textsTo_train recipient hsize]
    congr 1
    unfold sentTo
    split
    · next hr => simp [hr]
    · next hr => simp [hr]
  · rw [(hleaves e (by rw [heq])).1, heq]
    exact String.append_empty.symm

/-- **When a failed send sends nothing.** In a run, failed calls leave nothing behind, and every
recipient has what the successful calls sent, exactly when the transport never takes a part of a
train: in each call it takes every chunk or refuses the first. -/
theorem RelayChannel.failed_sends_leave_nothing_iff (transport : RelayTransport R) (relay : R)
    (allowlist : InboundAllowlist) (calls : List ApprovedMessage) :
    let S := outbound transport.recorded
    let start := RelayChannel.new (relay, []) allowlist
    (S.Along start (LeavesNothing transport) calls ∧
        ∀ recipient, textsTo recipient (S.after start calls).outbox =
          sentTo recipient (S.exchanges start calls)) ↔
      S.Along start (fun ch msg => (utf8 msg.text).length ≤ MAX_MESSAGE_BYTES →
        WholeOrNothing transport ch.relay.1 msg) calls := by
  intro S start
  simp only [← leavesNothing_iff]
  constructor
  · exact And.left
  · intro hall
    refine ⟨hall, fun recipient => ?_⟩
    refine S.history_along
      (P := fun exchanges ch => textsTo recipient ch.outbox = sentTo recipient exchanges) rfl ?_ hall
    intro exchanges ch msg h hleaves
    exact textsTo_queueApproved hleaves h

/-- A transport whose signer goes offline after the first chunk of a train. -/
def signerDropsOut : RelayTransport Unit where
  drainInbound s := ([], s)
  sendChunk s _ chunk := (if chunk.index = 0 then .ok () else .error .signerOffline, s)

/-- The first chunk of a text of two is sent, although the call fails. -/
theorem RelayChannel.front_of_train_sent :
    let msg : ApprovedMessage := ⟨⟨.fill 32 1⟩, String.ofList (List.replicate 8193 'a')⟩
    let S := outbound signerDropsOut.recorded
    let start := RelayChannel.new ((), []) ⟨∅⟩
    ¬ (S.Along start (LeavesNothing signerDropsOut) [msg] ∧
        ∀ recipient, textsTo recipient (S.after start [msg]).outbox =
          sentTo recipient (S.exchanges start [msg])) := by
  rintro msg S start ⟨hall, -⟩
  have hbytes : (utf8 msg.text).length = 8193 := by
    rw [utf8_length, String.toList_ofList, List.map_replicate, List.sum_replicate_nat]
    rfl
  have hsize : (utf8 msg.text).length ≤ MAX_MESSAGE_BYTES := by
    rw [hbytes]
    decide
  have hwhole := (leavesNothing_iff _ _ _).mp (hall [] msg [] rfl) hsize
  obtain ⟨hchunks, htext⟩ := train_spec hsize
  unfold WholeOrNothing at hwhole
  generalize train msg.text = chunks at hchunks htext hwhole
  match chunks with
  | [] =>
    rw [← htext] at hbytes
    cases hbytes
  | [c] =>
    -- one chunk does not hold the text
    have hc := (hchunks 0 c rfl).within
    rw [List.map_singleton, String.join_cons, String.join_nil, String.append_empty] at htext
    rw [htext, hbytes] at hc
    exact absurd hc (by decide)
  | c :: d :: rest =>
    have hfirst : c.index = 0 := UInt16.toNat_inj.mp (hchunks 0 c rfl).index_eq
    have hsecond : ¬ d.index = 0 := by
      intro h
      have hd := (hchunks 1 d rfl).index_eq
      rw [h] at hd
      cases hd
    have hoffer : signerDropsOut.offer msg.recipient () (c :: d :: rest) =
        [(c, .ok ()), (d, .error .signerOffline)] := by
      simp only [RelayTransport.offer, signerDropsOut, hfirst, if_true, if_neg hsecond]
    rw [hoffer] at hwhole
    rcases hwhole with h | h
    · exact error_ne_ok _ (h (d, .error .signerOffline) (by simp))
    · exact h (c, .ok ()) List.mem_cons_self rfl

end GooseClaw
