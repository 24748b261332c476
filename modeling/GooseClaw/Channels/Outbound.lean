import GooseClaw.Found.Machine
import GooseClaw.Found.Pack
import GooseClaw.Channels.Relay

/-!
# Outbound messages

`chunk_text` of `crates/gooseclaw-channels/src/moderation.rs` and `queue_approved` of
`crates/gooseclaw-channels/src/nostr_relay.rs`: an approved text is cut into a train of chunks, and
the train is handed to the transport chunk by chunk, until the transport refuses one.

`chunk_text` is the greedy packing of the text's characters by their UTF-8 sizes
(`chunkText_eq_pack`), so what is known of packings is known of trains (`train_spec`), and what is
known of elements over the limit of budgets below a character (`chunkText_cutInto_iff`).
`queueApproved_cases` says once what a call can do. The transport is any: it keeps a state of its own
and answers as it likes. To speak about what it received, `RelayTransport.recorded` writes down every
chunk it is handed with its answer, which changes nothing else (`RelayChannel.queueApproved_recorded`).
-/

namespace GooseClaw

open Found

/-! ## Chunks -/

/-- Nostr DM limit, relay-dependent. -/
def NOSTR_DM_LIMIT : Nat := 8 * 1024

/-- The body of the loop of `chunk_text`: the chunks closed and the current one. -/
def chunkStep (limitBytes : Nat) (acc : List String × String) (ch : Char) : List String × String :=
  if (utf8 acc.2).length + ch.utf8Size > limitBytes then (acc.1 ++ [acc.2], "".push ch)
  else (acc.1, acc.2.push ch)

/-- Chunk outbound text into DM-sized pieces. The limit is asserted to be positive. -/
def chunkText (text : String) (limitBytes : Nat) (_positive : 0 < limitBytes) : List String :=
  let (out, cur) := text.toList.foldl (chunkStep limitBytes) ([], "")
  if !cur.isEmpty then out ++ [cur] else out

/-- Pieces and an open piece, as texts. -/
def asTexts (s : List (List Char) × List Char) : List String × String :=
  (s.1.map String.ofList, String.ofList s.2)

theorem push_ofList (l : List Char) (c : Char) :
    (String.ofList l).push c = String.ofList (l ++ [c]) := by
  rw [← String.toList_inj, String.toList_push, String.toList_ofList, String.toList_ofList]

theorem chunkStep_asTexts (limitBytes : Nat) (s : List (List Char) × List Char) (ch : Char) :
    chunkStep limitBytes (asTexts s) ch = asTexts (packStep Char.utf8Size limitBytes s ch) := by
  have hbytes : (utf8 (asTexts s).2).length = weight Char.utf8Size s.2 := by
    rw [utf8_length, asTexts, String.toList_ofList, weight]
  have hfresh : "".push ch = String.ofList [ch] := push_ofList [] ch
  unfold chunkStep packStep
  rw [hbytes, hfresh]
  split
  · simp only [asTexts, List.map_append, List.map_singleton]
  · simp only [asTexts, push_ofList]

/-- **`chunk_text` packs the characters of the text** by their sizes. -/
theorem chunkText_eq_pack (text : String) (limitBytes : Nat) (h : 0 < limitBytes) :
    chunkText text limitBytes h =
      (pack Char.utf8Size limitBytes text.toList).map String.ofList := by
  have hfold : text.toList.foldl (chunkStep limitBytes) ([], "") =
      asTexts (text.toList.foldl (packStep Char.utf8Size limitBytes) ([], [])) := by
    have hstart : asTexts ([], []) = ([], "") := by
      simp only [asTexts, List.map_nil, String.ofList_nil]
    rw [← hstart]
    exact List.foldl_hom asTexts (chunkStep_asTexts limitBytes)
  unfold chunkText pack packEnd
  rw [hfold]
  generalize text.toList.foldl (packStep Char.utf8Size limitBytes) ([], []) = s
  have hempty : (asTexts s).2.isEmpty = s.2.isEmpty := by
    rw [Bool.eq_iff_iff, String.isEmpty_iff, List.isEmpty_iff, asTexts, ← String.toList_inj,
      String.toList_ofList]
    rfl
  simp only [hempty]
  cases s.2.isEmpty with
  | true => rfl
  | false => simp only [asTexts, Bool.not_false, Bool.false_eq_true, if_true, if_false,
      List.map_append, List.map_singleton]

/-- The chunks joined are the text. -/
theorem join_chunkText (text : String) (limitBytes : Nat) (h : 0 < limitBytes) :
    String.join (chunkText text limitBytes h) = text := by
  rw [← String.toList_inj, String.toList_join, chunkText_eq_pack, List.flatMap_map]
  simp only [String.toList_ofList]
  rw [List.flatMap_id', flatten_pack]

theorem utf8Size_le (text : String) : ∀ c ∈ text.toList, c.utf8Size ≤ 4 :=
  fun c _ => c.utf8Size_le_four

/-- No chunk is empty or over the limit, when every character fits one. -/
theorem mem_chunkText {text piece : String} {limitBytes : Nat} {h : 0 < limitBytes}
    (hlimit : 4 ≤ limitBytes) (hp : piece ∈ chunkText text limitBytes h) :
    piece ≠ "" ∧ (utf8 piece).length ≤ limitBytes := by
  rw [chunkText_eq_pack] at hp
  obtain ⟨l, hl, rfl⟩ := List.mem_map.mp hp
  constructor
  · intro hempty
    refine ne_nil_of_mem_pack hlimit (utf8Size_le text) hl ?_
    rw [← String.toList_ofList (l := l), hempty]
    rfl
  · rw [utf8_length, String.toList_ofList]
    exact weight_of_mem_pack hlimit (utf8Size_le text) hl

/-- No cut of the text into pieces within the limit has fewer pieces. -/
theorem length_chunkText_le {limitBytes : Nat} (h : 0 < limitBytes) {pieces : List String}
    (hp : ∀ piece ∈ pieces, (utf8 piece).length ≤ limitBytes) :
    (chunkText (String.join pieces) limitBytes h).length ≤ pieces.length := by
  have hcut : ∀ piece ∈ pieces.map String.toList, weight Char.utf8Size piece ≤ limitBytes := by
    intro chars hmem
    obtain ⟨piece, hpiece, rfl⟩ := List.mem_map.mp hmem
    rw [weight, ← utf8_length]
    exact hp piece hpiece
  have hpack := length_pack_le hcut
  rw [List.length_map] at hpack
  rw [chunkText_eq_pack, List.length_map, String.toList_join, List.flatMap_def]
  exact hpack

/-- **`chunk_text` is lossless, within the budget and optimal**: with room for any character, the
chunks joined are the text, none is empty or over the limit, and no cut of the text into pieces within
the limit has fewer. -/
theorem chunkText_optimal (text : String) (limitBytes : Nat) (hlimit : 4 ≤ limitBytes) :
    String.join (chunkText text limitBytes (by omega)) = text ∧
      (∀ piece ∈ chunkText text limitBytes (by omega),
        piece ≠ "" ∧ (utf8 piece).length ≤ limitBytes) ∧
      ∀ pieces : List String, String.join pieces = text →
        (∀ piece ∈ pieces, (utf8 piece).length ≤ limitBytes) →
        (chunkText text limitBytes (by omega)).length ≤ pieces.length := by
  refine ⟨join_chunkText _ _ _, fun piece hp => mem_chunkText hlimit hp, ?_⟩
  rintro pieces rfl hp
  exact length_chunkText_le _ hp

/-- A character of four bytes and one of two are cut into no more chunks of four than one each. -/
theorem chunkText_optimal_sample :
    String.join (chunkText "😀é" 4 (by omega)) = "😀é" ∧
      (chunkText "😀é" 4 (by omega)).length ≤ ["😀", "é"].length := by
  have h := chunkText_optimal "😀é" 4 (Nat.le_refl 4)
  exact ⟨h.1, h.2.2 ["😀", "é"] (by decide) (by decide)⟩

/-! ## Budgets below a character -/

/-- Within the limit, or one character that is larger than it. -/
def FitsLimit (limitBytes : Nat) (piece : String) : Prop :=
  (utf8 piece).length ≤ limitBytes ∨ ∃ c, piece = String.singleton c ∧ limitBytes < c.utf8Size

theorem fitsLimit_of_mem {text piece : String} {limitBytes : Nat} {h : 0 < limitBytes}
    (hp : piece ∈ chunkText text limitBytes h) : FitsLimit limitBytes piece := by
  rw [chunkText_eq_pack] at hp
  obtain ⟨l, hl, rfl⟩ := List.mem_map.mp hp
  rcases fits_of_mem_pack hl with hwithin | ⟨c, rfl, hover⟩
  · left
    rw [utf8_length, String.toList_ofList]
    exact hwithin
  · exact .inr ⟨c, String.singleton_eq_ofList.symm, hover⟩

/-- The loop pushes the current chunk without a look whether anything is in it. -/
theorem empty_mem_chunkText {text : String} {limitBytes : Nat} {h : 0 < limitBytes} :
    "" ∈ chunkText text limitBytes h ↔ ∃ c ∈ text.toList.head?, limitBytes < c.utf8Size := by
  rw [chunkText_eq_pack, ← nil_mem_pack, List.mem_map]
  constructor
  · rintro ⟨l, hl, hempty⟩
    rw [← String.ofList_nil, String.ofList_inj] at hempty
    rwa [hempty] at hl
  · exact fun hnil => ⟨[], hnil, String.ofList_nil⟩

/-- The chunks are the text in pieces, none of them empty, and none over the limit but a character that
is so alone. -/
structure CutInto (limitBytes : Nat) (text : String) (chunks : List String) : Prop where
  joined : String.join chunks = text
  nonempty : ∀ piece ∈ chunks, piece ≠ ""
  fits : ∀ piece ∈ chunks, FitsLimit limitBytes piece

/-- **`chunk_text` under any limit that passes its assertion**: it cuts the text into such chunks
exactly when the first character is within the limit. -/
theorem chunkText_cutInto_iff (text : String) (limitBytes : Nat) (h : 0 < limitBytes) :
    CutInto limitBytes text (chunkText text limitBytes h) ↔
      ∀ c ∈ text.toList.head?, c.utf8Size ≤ limitBytes := by
  have hempty : "" ∉ chunkText text limitBytes h ↔
      ∀ c ∈ text.toList.head?, c.utf8Size ≤ limitBytes := by
    rw [empty_mem_chunkText]
    push Not
    rfl
  constructor
  · intro hcut
    exact hempty.mp fun hmem => hcut.nonempty "" hmem rfl
  · intro hfirst
    have hnone : "" ∉ chunkText text limitBytes h := hempty.mpr hfirst
    refine ⟨join_chunkText text limitBytes h, ?_, fun piece hp => fitsLimit_of_mem hp⟩
    rintro piece hp rfl
    exact hnone hp

/-- Behind a first character within the limit, larger ones do no harm. -/
theorem chunkText_cutInto_sample :
    CutInto 2 "ab😀é" (chunkText "ab😀é" 2 (by decide)) := by
  refine (chunkText_cutInto_iff "ab😀é" 2 (by decide)).mpr ?_
  intro c hc
  have hfirst : 'a' = c := Option.some.inj hc
  rw [← hfirst]
  decide

/-- A character over the limit at the start of the text leaves an empty chunk in front of it. -/
theorem chunkText_empty_chunk : ¬ CutInto 1 "é" (chunkText "é" 1 (by decide)) := by
  intro hcut
  exact hcut.nonempty "" (by decide) rfl

/-! ## Trains -/

/-- The chunk made of one part of a text and its place. The casts are `as u16`. -/
def OutboundChunk.ofPart (total : UInt16) (part : String × Nat) : OutboundChunk :=
  ⟨part.1, UInt16.ofNat part.2, total⟩

/-- The parts of a text, each with its place. -/
def parts (text : String) : List (String × Nat) := (chunkText text NOSTR_DM_LIMIT (by decide)).zipIdx

/-- The train of a text: its chunks, in wire order. -/
def train (text : String) : List OutboundChunk :=
  (parts text).map (.ofPart (UInt16.ofNat (parts text).length))

theorem length_train (text : String) : (train text).length = (parts text).length :=
  List.length_map _

/-- A text within the cap is cut into nine chunks at most. -/
theorem length_train_le {text : String} (h : (utf8 text).length ≤ MAX_MESSAGE_BYTES) :
    (train text).length ≤ 9 := by
  have hcount : ((pack Char.utf8Size NOSTR_DM_LIMIT text.toList).length - 1) *
      (NOSTR_DM_LIMIT + 1 - 4) ≤ weight Char.utf8Size text.toList :=
    length_pack_mul_le (by decide) (utf8Size_le text)
  rw [weight, ← utf8_length] at hcount
  rw [length_train, parts, List.length_zipIdx, chunkText_eq_pack, List.length_map]
  simp only [MAX_MESSAGE_BYTES] at h
  simp only [NOSTR_DM_LIMIT] at hcount ⊢
  omega

/-- A chunk is not empty, fits a DM, and carries its place and the length of its train. -/
structure ChunkOk (i n : Nat) (chunk : OutboundChunk) : Prop where
  text_ne : chunk.text ≠ ""
  within : (utf8 chunk.text).length ≤ NOSTR_DM_LIMIT
  index_eq : chunk.index.toNat = i
  total_eq : chunk.total.toNat = n

/-- **What a train is**: good chunks, numbered in order, which joined are the text. -/
theorem train_spec {text : String} (h : (utf8 text).length ≤ MAX_MESSAGE_BYTES) :
    (∀ i chunk, (train text)[i]? = some chunk → ChunkOk i (train text).length chunk) ∧
      String.join ((train text).map OutboundChunk.text) = text := by
  have hlength := length_train_le h
  constructor
  · intro i chunk hget
    have hi : i < (train text).length := (List.getElem?_eq_some_iff.mp hget).1
    unfold train at hget
    rw [List.getElem?_map, Option.map_eq_some_iff] at hget
    obtain ⟨⟨piece, j⟩, hpart, rfl⟩ := hget
    rw [parts, List.getElem?_zipIdx, Option.map_eq_some_iff] at hpart
    obtain ⟨piece', hpiece, heq⟩ := hpart
    obtain ⟨rfl, rfl⟩ := Prod.mk.inj heq
    obtain ⟨hne, hwithin⟩ := mem_chunkText (by decide) (List.mem_of_getElem? hpiece)
    refine ⟨hne, hwithin, ?_, ?_⟩
    · simp only [OutboundChunk.ofPart, UInt16.toNat_ofNat']
      omega
    · rw [OutboundChunk.ofPart, ← length_train, UInt16.toNat_ofNat']
      omega
  · have htexts : (train text).map OutboundChunk.text =
        chunkText text NOSTR_DM_LIMIT (by decide) := by
      rw [train, List.map_map, ← List.zipIdx_map_fst 0 (chunkText text NOSTR_DM_LIMIT _)]
      rfl
    rw [htexts, join_chunkText]

/-! ## Sending -/

/-- What happened to one operator-approved outbound message. -/
inductive SendOutcome
  | sent (chunks : Nat)
  deriving DecidableEq

/-- One operator-approved message. -/
structure ApprovedMessage where
  recipient : SenderKey
  text : String
  deriving DecidableEq

section Send

variable {R : Type} (transport : RelayTransport R)

/-- `RelayChannel::new`. -/
def RelayChannel.new (relay : R) (allowlist : InboundAllowlist) : RelayChannel R :=
  ⟨relay, allowlist, []⟩

/-- The send loop: each chunk is handed to the transport, and kept in the outbox when it was
accepted. The first refusal ends the call. -/
def RelayChannel.sendLoop (recipient : SenderKey) (total : UInt16) :
    RelayChannel R → List (String × Nat) → Except RelayError Unit × RelayChannel R
  | ch, [] => (.ok (), ch)
  | ch, part :: rest =>
    let chunk := OutboundChunk.ofPart total part
    match transport.sendChunk ch.relay recipient chunk with
    | (.error e, relay) => (.error e, { ch with relay })
    | (.ok (), relay) =>
      sendLoop recipient total { ch with relay, outbox := ch.outbox ++ [(recipient, chunk)] } rest

/-- Send one operator-approved message: chunk it and hand the chunks to the transport. -/
def RelayChannel.queueApproved (ch : RelayChannel R) (msg : ApprovedMessage) :
    Except RelayError SendOutcome × RelayChannel R :=
  if (utf8 msg.text).length > MAX_MESSAGE_BYTES then (.error .oversized, ch)
  else
    let chunks := parts msg.text
    let total := UInt16.ofNat chunks.length
    match ch.sendLoop transport msg.recipient total chunks with
    | (.error e, ch) => (.error e, ch)
    | (.ok (), ch) => (.ok (.sent total.toNat), ch)

/-- The channel as a service: each call sends one message. -/
def outbound : Service (RelayChannel R) ApprovedMessage (Except RelayError SendOutcome) where
  handle ch msg := ch.queueApproved transport msg

/-! ## What the transport receives -/

/-- A chunk handed to the transport, with its answer. -/
structure Handover where
  recipient : SenderKey
  chunk : OutboundChunk
  answer : Except RelayError Unit

/-- A chunk the transport accepted. -/
def Handover.accepted (recipient : SenderKey) (chunk : OutboundChunk) : Handover :=
  ⟨recipient, chunk, .ok ()⟩

/-- What the transport accepted of what it was handed. -/
def acceptedOf (log : List Handover) : List (SenderKey × OutboundChunk) :=
  log.filterMap fun h =>
    match h.answer with
    | .ok () => some (h.recipient, h.chunk)
    | .error _ => none

/-- The transport, and every chunk it is handed written down. -/
def RelayTransport.recorded : RelayTransport (R × List Handover) where
  drainInbound s :=
    let (batch, relay) := transport.drainInbound s.1
    (batch, relay, s.2)
  sendChunk s recipient chunk :=
    let (answer, relay) := transport.sendChunk s.1 recipient chunk
    (answer, relay, s.2 ++ [⟨recipient, chunk, answer⟩])

/-- The channel without the records of its transport. -/
def RelayChannel.erased (ch : RelayChannel (R × List Handover)) : RelayChannel R :=
  ⟨ch.relay.1, ch.allowlist, ch.outbox⟩

variable {transport}

theorem RelayChannel.sendLoop_recorded (recipient : SenderKey) (total : UInt16)
    (ch : RelayChannel (R × List Handover)) (chunks : List (String × Nat)) :
    (ch.sendLoop transport.recorded recipient total chunks).map id erased =
      ch.erased.sendLoop transport recipient total chunks := by
  induction chunks generalizing ch with
  | nil => rfl
  | cons part rest ih =>
    rcases hanswer : transport.sendChunk ch.relay.1 recipient (.ofPart total part) with
      ⟨answer, relay⟩
    cases answer with
    | error e => simp only [sendLoop, RelayTransport.recorded, erased, hanswer, Prod.map, id]
    | ok u =>
      simp only [sendLoop, RelayTransport.recorded, erased, hanswer]
      exact ih _

/-- **Writing down what the transport is handed changes nothing.** -/
theorem RelayChannel.queueApproved_recorded (ch : RelayChannel (R × List Handover))
    (msg : ApprovedMessage) :
    (ch.queueApproved transport.recorded msg).map id erased =
      ch.erased.queueApproved transport msg := by
  unfold queueApproved
  split
  · rfl
  · dsimp only
    rw [← sendLoop_recorded]
    obtain ⟨answer, ch'⟩ :=
      ch.sendLoop transport.recorded msg.recipient (UInt16.ofNat (parts msg.text).length)
        (parts msg.text)
    cases answer <;> rfl

/-- The answers to chunks handed over in order, up to the first refusal. -/
def RelayTransport.offer (transport : RelayTransport R) (recipient : SenderKey) :
    R → List OutboundChunk → List (OutboundChunk × Except RelayError Unit)
  | _, [] => []
  | relay, chunk :: rest =>
    match transport.sendChunk relay recipient chunk with
    | (.error e, _) => [(chunk, .error e)]
    | (.ok (), relay) => (chunk, .ok ()) :: offer transport recipient relay rest

/-- The channel when the transport has accepted `front`, and the records end in `refused`. -/
def RelayChannel.grown (ch : RelayChannel (R × List Handover)) (recipient : SenderKey) (relay : R)
    (front : List OutboundChunk) (refused : List Handover) : RelayChannel (R × List Handover) :=
  ⟨(relay, ch.relay.2 ++ front.map (.accepted recipient) ++ refused), ch.allowlist,
    ch.outbox ++ front.map (recipient, ·)⟩

theorem RelayChannel.grown_cons (ch : RelayChannel (R × List Handover)) (recipient : SenderKey)
    (relay relay' : R) (chunk : OutboundChunk) (front : List OutboundChunk)
    (refused : List Handover) :
    (ch.grown recipient relay [chunk] []).grown recipient relay' front refused =
      ch.grown recipient relay' (chunk :: front) refused := by
  simp only [grown, List.map_cons, List.map_nil, List.append_nil, List.append_assoc,
    List.cons_append, List.nil_append]

/-- **What the send loop does.** All chunks are accepted, or those in front of one that is refused.
The outbox and the records grow by the same chunks. -/
theorem RelayChannel.sendLoop_cases (recipient : SenderKey) (total : UInt16)
    (ch : RelayChannel (R × List Handover)) (chunks : List (String × Nat)) :
    let train := chunks.map (OutboundChunk.ofPart total)
    (∃ relay, transport.offer recipient ch.relay.1 train = train.map (·, .ok ()) ∧
      ch.sendLoop transport.recorded recipient total chunks =
        (.ok (), ch.grown recipient relay train [])) ∨
    ∃ front chunk rest e relay, train = front ++ chunk :: rest ∧
      transport.offer recipient ch.relay.1 train =
        front.map (·, .ok ()) ++ [(chunk, .error e)] ∧
      ch.sendLoop transport.recorded recipient total chunks =
        (.error e, ch.grown recipient relay front [⟨recipient, chunk, .error e⟩]) := by
  induction chunks generalizing ch with
  | nil => exact .inl ⟨ch.relay.1, rfl, by simp [sendLoop, grown]⟩
  | cons part rest ih =>
    rcases hanswer : transport.sendChunk ch.relay.1 recipient (.ofPart total part) with
      ⟨answer, relay⟩
    cases answer with
    | error e =>
      refine .inr ⟨[], _, _, e, relay, rfl, ?_, ?_⟩
      · simp only [List.map_cons, RelayTransport.offer, hanswer, List.map_nil, List.nil_append]
      · simp only [sendLoop, RelayTransport.recorded, hanswer, grown, List.map_nil, List.append_nil]
    | ok u =>
      have hloop : ch.sendLoop transport.recorded recipient total (part :: rest) =
          (ch.grown recipient relay [.ofPart total part] []).sendLoop transport.recorded recipient
            total rest := by
        simp only [sendLoop, RelayTransport.recorded, hanswer, grown, Handover.accepted,
          List.map_cons, List.map_nil, List.append_nil]
      have hoffer : transport.offer recipient ch.relay.1
          (.ofPart total part :: rest.map (.ofPart total)) =
            (.ofPart total part, .ok ()) ::
              transport.offer recipient relay (rest.map (.ofPart total)) := by
        simp only [RelayTransport.offer, hanswer]
      simp only [List.map_cons, hloop, hoffer]
      rcases ih (ch.grown recipient relay [.ofPart total part] []) with
        ⟨relay', hoff, heq⟩ | ⟨front, chunk, later, e, relay', htrain, hoff, heq⟩
      · refine .inl ⟨relay', ?_, ?_⟩
        · exact congrArg _ hoff
        · rw [heq, grown_cons]
      · refine .inr ⟨.ofPart total part :: front, chunk, later, e, relay', ?_, ?_, ?_⟩
        · rw [htrain, List.cons_append]
        · exact congrArg _ hoff
        · rw [heq, grown_cons]

/-- **What a call does**: it hands nothing over, or its whole train, or the train up to a chunk that
is refused. -/
theorem RelayChannel.queueApproved_cases (transport : RelayTransport R)
    (ch : RelayChannel (R × List Handover)) (msg : ApprovedMessage) :
    ((utf8 msg.text).length > MAX_MESSAGE_BYTES ∧
      ch.queueApproved transport.recorded msg = (.error .oversized, ch)) ∨
    ((utf8 msg.text).length ≤ MAX_MESSAGE_BYTES ∧ ∃ relay,
      transport.offer msg.recipient ch.relay.1 (train msg.text) =
        (train msg.text).map (·, .ok ()) ∧
      ch.queueApproved transport.recorded msg = (.ok (.sent (train msg.text).length),
        ch.grown msg.recipient relay (train msg.text) [])) ∨
    ((utf8 msg.text).length ≤ MAX_MESSAGE_BYTES ∧ ∃ front chunk rest e relay,
      train msg.text = front ++ chunk :: rest ∧
      transport.offer msg.recipient ch.relay.1 (train msg.text) =
        front.map (·, .ok ()) ++ [(chunk, .error e)] ∧
      ch.queueApproved transport.recorded msg =
        (.error e, ch.grown msg.recipient relay front [⟨msg.recipient, chunk, .error e⟩])) := by
  unfold queueApproved
  split
  · next h => exact .inl ⟨h, rfl⟩
  · next h =>
    have hsize := Nat.le_of_not_lt h
    have htotal : (UInt16.ofNat (parts msg.text).length).toNat = (train msg.text).length := by
      have hlength := length_train_le hsize
      rw [← length_train, UInt16.toNat_ofNat']
      omega
    rcases @sendLoop_cases R transport msg.recipient (UInt16.ofNat (parts msg.text).length) ch
      (parts msg.text) with
      ⟨relay, hoff, heq⟩ | ⟨front, chunk, rest, e, relay, htrain, hoff, heq⟩
    · refine .inr (.inl ⟨hsize, relay, hoff, ?_⟩)
      simp only [heq, htotal]
      rfl
    · refine .inr (.inr ⟨hsize, front, chunk, rest, e, relay, htrain, hoff, ?_⟩)
      simp only [heq]

/-! ## What the transport accepted -/

theorem acceptedOf_append (log more : List Handover) :
    acceptedOf (log ++ more) = acceptedOf log ++ acceptedOf more :=
  List.filterMap_append

theorem acceptedOf_accepted (recipient : SenderKey) (front : List OutboundChunk) :
    acceptedOf (front.map (.accepted recipient)) = front.map (recipient, ·) := by
  induction front with
  | nil => rfl
  | cons chunk front ih => exact congrArg _ ih

/-- The outbox and the accepted chunks grow by the same. -/
theorem RelayChannel.outbox_grown {ch : RelayChannel (R × List Handover)} {recipient : SenderKey}
    {relay : R} {front : List OutboundChunk} {refused : List Handover}
    (h : ch.outbox = acceptedOf ch.relay.2) (hrefused : acceptedOf refused = []) :
    (ch.grown recipient relay front refused).outbox =
      acceptedOf (ch.grown recipient relay front refused).relay.2 := by
  simp only [grown, acceptedOf_append, acceptedOf_accepted, hrefused, h, List.append_nil]

end Send

end GooseClaw
