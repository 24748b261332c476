import Mathlib.Data.Finset.Basic
import GooseClaw.Gate.Action

/-!
# Inbound messages

`strip_invisible` of `crates/gooseclaw-safety/src/lib.rs` and the inbound allowlist of
`crates/gooseclaw-channels/src/lib.rs`: an unknown sender is rejected before its text is looked at,
an allowed one has its text sanitized.
-/

namespace GooseClaw

/-! ## Sanitizing -/

/-- The characters `strip_invisible` removes: the tag block, zero-width characters and bidi
controls. -/
def isInvisible (c : Char) : Bool :=
  let u := c.toNat
  (0xE0000 ≤ u && u ≤ 0xE007F)
    || (0x200B ≤ u && u ≤ 0x200D)
    || u == 0x2060
    || u == 0xFEFF
    || (0x202A ≤ u && u ≤ 0x202E)
    || (0x2066 ≤ u && u ≤ 0x2069)

/-- Strip invisible/hostile Unicode. -/
def stripInvisible (input : String) : String :=
  String.ofList (input.toList.filter fun c => !isInvisible c)

/-- What is left holds no invisible character. -/
theorem not_isInvisible_of_mem_strip {s : String} {c : Char}
    (h : c ∈ (stripInvisible s).toList) : isInvisible c = false := by
  rw [stripInvisible, String.toList_ofList] at h
  simpa using (List.mem_filter.mp h).2

/-- Stripping twice strips once. -/
theorem stripInvisible_idem (s : String) :
    stripInvisible (stripInvisible s) = stripInvisible s := by
  simp only [stripInvisible, String.toList_ofList, List.filter_filter, Bool.and_self]

/-! ## The allowlist -/

/-- A sender identity. -/
structure SenderKey where
  bytes : Bytes 32
  deriving DecidableEq

/-- Inbound message as received from the wire. -/
structure InboundMessage where
  sender : SenderKey
  text : String
  receivedAtUnix : UInt64
  deriving DecidableEq

/-- A message that survived the allowlist and Unicode stripping. -/
structure InboundEnvelope where
  sender : SenderKey
  text : String
  receivedAtUnix : UInt64
  deriving DecidableEq

inductive InboundRejection
  | unknownSender
  deriving DecidableEq

/-- The inbound allowlist. -/
structure InboundAllowlist where
  senders : Finset SenderKey

/-- The envelope of a message: its sender and time, and its sanitized text. -/
def InboundMessage.sanitized (msg : InboundMessage) : InboundEnvelope :=
  ⟨msg.sender, stripInvisible msg.text, msg.receivedAtUnix⟩

namespace InboundAllowlist

def isAllowed (al : InboundAllowlist) (sender : SenderKey) : Bool := sender ∈ al.senders

/-- `admit`: allowlist check, then sanitize. -/
def admitMessage (al : InboundAllowlist) (msg : InboundMessage) :
    Except InboundRejection InboundEnvelope :=
  if !al.isAllowed msg.sender then .error .unknownSender
  else .ok msg.sanitized

theorem admitMessage_allowed {al : InboundAllowlist} {msg : InboundMessage}
    (h : al.isAllowed msg.sender = true) : al.admitMessage msg = .ok msg.sanitized := by
  simp only [admitMessage, h, Bool.not_true, Bool.false_eq_true, if_false]

theorem admitMessage_unknown {al : InboundAllowlist} {msg : InboundMessage}
    (h : al.isAllowed msg.sender = false) : al.admitMessage msg = .error .unknownSender := by
  simp only [admitMessage, h, Bool.not_false, if_true]

end InboundAllowlist

end GooseClaw
