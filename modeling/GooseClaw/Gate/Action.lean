import Mathlib.Algebra.Group.Nat.Defs
import Mathlib.Data.Set.Basic
import GooseClaw.Found.Utf8

/-!
# Actions, approvals and the bytes they stand for

The first half of `crates/gooseclaw/src/gate.rs`: what a subsystem asks for (`ActionRequest`), the
bytes its hash covers (`ActionRequest.preimage`), and the bytes a human signs
(`Approval.message`).

SHA-256 and ed25519 come from crates outside the repository, so they are a parameter, `Crypto`:
a digest function, the check that 32 bytes are a verifying key, and the verify predicate. Nothing
is assumed of them here; a law that needs collision freedom or unforgeability says so.

The signed message is injective (`Approval.message_inj`): its three fields have fixed widths. The
preimage of the hash is not, because its separators are in band; what it determines is the
subject of `Gate.Binding`.
-/

namespace GooseClaw

open Found

/-- `[u8; n]`. -/
abbrev Bytes (n : Nat) := { bs : List UInt8 // bs.length = n }

/-- One byte, over and over. -/
def Bytes.fill (n : Nat) (b : UInt8) : Bytes n := ⟨List.replicate n b, List.length_replicate⟩

/-- The digest and signature functions the gate calls. -/
structure Crypto where
  /-- `Sha256::digest`. -/
  sha256 : List UInt8 → Bytes 32
  /-- `VerifyingKey::from_bytes` succeeds. -/
  isKey : Bytes 32 → Bool
  /-- `key.verify(msg, sig)` succeeds. -/
  verify : Bytes 32 → List UInt8 → Bytes 64 → Bool

/-! ## Actions -/

/-- SHA-256 over the canonical action encoding. -/
structure ActionHash where
  bytes : Bytes 32
  deriving DecidableEq

/-- A consequential action a subsystem wants the human to authorize. -/
structure ActionRequest where
  actor : String
  summary : String
  payload : List UInt8
  deriving DecidableEq

/-- The bytes `ActionRequest::hash` feeds to the digest: the three fields with a `0x00` after each
of the first two. -/
def ActionRequest.preimage (a : ActionRequest) : List UInt8 :=
  utf8 a.actor ++ 0 :: (utf8 a.summary ++ 0 :: a.payload)

def ActionRequest.hash (cr : Crypto) (a : ActionRequest) : ActionHash :=
  ⟨cr.sha256 a.preimage⟩

/-- Equal hashes of requests that do not collide come from equal preimages. -/
theorem ActionRequest.preimage_of_hash_eq {cr : Crypto} {a b : ActionRequest}
    (nocollide : cr.sha256 a.preimage = cr.sha256 b.preimage → a.preimage = b.preimage)
    (h : a.hash cr = b.hash cr) : a.preimage = b.preimage :=
  nocollide (congrArg ActionHash.bytes h)

/-! ## Approvals -/

/-- `u64::to_be_bytes`. -/
def toBeBytes (x : UInt64) : List UInt8 :=
  [56, 48, 40, 32, 24, 16, 8, 0].map fun shift => UInt8.ofNat (x.toNat / 2 ^ shift)

/-- Equal low bits and an equal byte above them are equal bits up to there. -/
private theorem low_bits_grow {x y k : Nat} (hlow : x % 2 ^ k = y % 2 ^ k)
    (h : UInt8.ofNat (x / 2 ^ k) = UInt8.ofNat (y / 2 ^ k)) :
    x % 2 ^ (k + 8) = y % 2 ^ (k + 8) := by
  have hbyte : x / 2 ^ k % 2 ^ 8 = y / 2 ^ k % 2 ^ 8 := by
    simpa only [UInt8.toNat_ofNat'] using congrArg UInt8.toNat h
  rw [Nat.pow_add, Nat.mod_mul, Nat.mod_mul, hlow, hbyte]

theorem toBeBytes_inj {x y : UInt64} (h : toBeBytes x = toBeBytes y) : x = y := by
  simp only [toBeBytes, List.map_cons, List.map_nil, List.cons.injEq, and_true] at h
  obtain ⟨h₇, h₆, h₅, h₄, h₃, h₂, h₁, h₀⟩ := h
  have low₀ : x.toNat % 2 ^ 0 = y.toNat % 2 ^ 0 := by rw [Nat.pow_zero, Nat.mod_one, Nat.mod_one]
  have low₄ := low_bits_grow (low_bits_grow (low_bits_grow (low_bits_grow low₀ h₀) h₁) h₂) h₃
  have low₈ := low_bits_grow (low_bits_grow (low_bits_grow (low_bits_grow low₄ h₄) h₅) h₆) h₇
  apply UInt64.toNat_inj.mp
  rwa [Nat.mod_eq_of_lt x.toNat_lt, Nat.mod_eq_of_lt y.toNat_lt] at low₈

/-- An authenticated human approval: who signs, a nonce, an expiry, and the signature over
`action_hash || nonce || expires_at_unix`. -/
structure Approval where
  pubkey : Bytes 32
  nonce : Bytes 32
  expiresAtUnix : UInt64
  signature : Bytes 64
  deriving DecidableEq

/-- Canonical signed bytes for (action, nonce, expiry). -/
def Approval.message (action : ActionHash) (nonce : Bytes 32) (expiresAtUnix : UInt64) :
    List UInt8 :=
  action.bytes.val ++ (nonce.val ++ toBeBytes expiresAtUnix)

/-- The message of an approval over an action. -/
abbrev Approval.messageFor (ap : Approval) (action : ActionHash) : List UInt8 :=
  Approval.message action ap.nonce ap.expiresAtUnix

/-- The signed message determines the action hash, the nonce and the expiry. -/
theorem Approval.message_inj {h h' : ActionHash} {n n' : Bytes 32} {e e' : UInt64}
    (heq : message h n e = message h' n' e') : h = h' ∧ n = n' ∧ e = e' := by
  obtain ⟨hh, hrest⟩ := List.append_inj heq (h.bytes.2.trans h'.bytes.2.symm)
  obtain ⟨hn, he⟩ := List.append_inj hrest (n.2.trans n'.2.symm)
  obtain ⟨b⟩ := h
  obtain ⟨b'⟩ := h'
  exact ⟨congrArg ActionHash.mk (Subtype.ext hh), Subtype.ext hn, toBeBytes_inj he⟩

/-- The approval's signature verifies over the action's message: it was signed for that action. -/
def Approval.SignedFor (cr : Crypto) (ap : Approval) (action : ActionHash) : Prop :=
  cr.verify ap.pubkey (ap.messageFor action) ap.signature = true

instance (cr : Crypto) (ap : Approval) (action : ActionHash) :
    Decidable (ap.SignedFor cr action) :=
  inferInstanceAs (Decidable (_ = true))

/-- Under one key, the approval's signature verifies for at most one message. -/
def Approval.SignsOneMessage (cr : Crypto) (ap : Approval) : Prop :=
  ∀ m m', cr.verify ap.pubkey m ap.signature = true → cr.verify ap.pubkey m' ap.signature = true →
    m = m'

/-- A signature for one message is a signature for one action. -/
theorem Approval.SignsOneMessage.action_eq {cr : Crypto} {ap : Approval}
    (one : ap.SignsOneMessage cr) {h h' : ActionHash} (hs : ap.SignedFor cr h)
    (hs' : ap.SignedFor cr h') : h = h' :=
  (Approval.message_inj (one _ _ hs hs')).1

end GooseClaw
