import Mathlib.Data.Finset.Basic
import GooseClaw.Found.Machine
import GooseClaw.Gate.Action

/-!
# The Rule-9 gate

The second half of `crates/gooseclaw/src/gate.rs`: the gate's four state components and its
operations. `now_unix()` is read where the source reads it, so `decide` takes two clock readings,
one for the expiry check and one for the audit record; nothing relates them to each other or to
the readings of other calls.

`decide` is described once, by `Rule9Gate.decide_cases`: it refuses and leaves the gate alone, or
every one of `Rule9Gate.Accepts` holds and the gate becomes `approve`d. Every law of the gate
reads that lemma and not the definition.
-/

namespace GooseClaw

open Found

inductive Decision
  | approved
  | denied
  deriving DecidableEq

inductive GateError
  | unknownSigner
  | badSignature
  | nonceReused
  | expired
  | actionNotPending
  deriving DecidableEq

/-- `impl Display for GateError`. -/
def GateError.display : GateError → String
  | .unknownSigner => "signer not on the approval allowlist"
  | .badSignature => "approval signature invalid"
  | .nonceReused => "approval nonce already used (replay)"
  | .expired => "approval expired"
  | .actionNotPending => "action was never submitted to the gate"

/-- The handle `submit` mints. -/
structure PendingAction where
  hash : ActionHash
  summary : String
  deriving DecidableEq

structure AuditRecord where
  atUnix : UInt64
  action : ActionHash
  decision : Decision
  signer : Option (Bytes 32)
  deriving DecidableEq

/-- The one gate. -/
structure Rule9Gate where
  allowlistedSigners : Finset (Bytes 32)
  usedNonces : Finset (Bytes 32)
  pending : Finset ActionHash
  audit : List AuditRecord

namespace Rule9Gate

/-! ## Operations -/

def new (allowlistedSigners : List (Bytes 32)) : Rule9Gate :=
  { allowlistedSigners := allowlistedSigners.toFinset, usedNonces := ∅, pending := ∅, audit := [] }

variable (cr : Crypto)

/-- Enter an action into the pending set. -/
def submit (g : Rule9Gate) (action : ActionRequest) : PendingAction × Rule9Gate :=
  (⟨action.hash cr, action.summary⟩, { g with pending := insert (action.hash cr) g.pending })

/-- What an accepted approval does to the gate: burn the nonce and the pending entry, record the
approval. -/
def approve (g : Rule9Gate) (hash : ActionHash) (approval : Approval) (auditNow : UInt64) :
    Rule9Gate :=
  { g with
    usedNonces := insert approval.nonce g.usedNonces
    pending := g.pending.erase hash
    audit := g.audit ++ [⟨auditNow, hash, .approved, some approval.pubkey⟩] }

/-- Decide a pending action from an authenticated approval. `now` is the reading of the expiry
check, `auditNow` the one of the audit record. -/
def decide (g : Rule9Gate) (pending : PendingAction) (approval : Approval)
    (now auditNow : UInt64) : Except GateError Decision × Rule9Gate :=
  if pending.hash ∉ g.pending then (.error .actionNotPending, g)
  else if approval.pubkey ∉ g.allowlistedSigners then (.error .unknownSigner, g)
  else if now > approval.expiresAtUnix then (.error .expired, g)
  else if approval.nonce ∈ g.usedNonces then (.error .nonceReused, g)
  else if ¬ cr.isKey approval.pubkey then (.error .unknownSigner, g)
  else if ¬ cr.verify approval.pubkey (approval.messageFor pending.hash) approval.signature then
    (.error .badSignature, g)
  else (.ok .approved, g.approve pending.hash approval auditNow)

/-- Record an explicit denial. The pending set is not consulted. -/
def deny (g : Rule9Gate) (pending : PendingAction) (auditNow : UInt64) : Decision × Rule9Gate :=
  (.denied,
    { g with
      pending := g.pending.erase pending.hash
      audit := g.audit ++ [⟨auditNow, pending.hash, .denied, none⟩] })

/-- `GateCaller::submit_and_decide`: the handle lives only for the call. -/
def submitAndDecide (g : Rule9Gate) (action : ActionRequest) (approval : Approval)
    (now auditNow : UInt64) : Except GateError Decision × Rule9Gate :=
  let (pending, g) := g.submit cr action
  g.decide cr pending approval now auditNow

@[simp] theorem submit_hash (g : Rule9Gate) (a : ActionRequest) :
    (g.submit cr a).1.hash = a.hash cr := rfl

@[simp] theorem submit_audit (g : Rule9Gate) (a : ActionRequest) :
    (g.submit cr a).2.audit = g.audit := rfl

@[simp] theorem submit_usedNonces (g : Rule9Gate) (a : ActionRequest) :
    (g.submit cr a).2.usedNonces = g.usedNonces := rfl

@[simp] theorem submit_pending (g : Rule9Gate) (a : ActionRequest) :
    (g.submit cr a).2.pending = insert (a.hash cr) g.pending := rfl

@[simp] theorem approve_usedNonces (g : Rule9Gate) (h : ActionHash) (ap : Approval)
    (at' : UInt64) : (g.approve h ap at').usedNonces = insert ap.nonce g.usedNonces := rfl

@[simp] theorem approve_pending (g : Rule9Gate) (h : ActionHash) (ap : Approval) (at' : UInt64) :
    (g.approve h ap at').pending = g.pending.erase h := rfl

@[simp] theorem deny_pending (g : Rule9Gate) (p : PendingAction) (at' : UInt64) :
    (g.deny p at').2.pending = g.pending.erase p.hash := rfl

/-! ## What `decide` does -/

/-- Everything `decide` checks. -/
structure Accepts (g : Rule9Gate) (hash : ActionHash) (approval : Approval) (now : UInt64) :
    Prop where
  isPending : hash ∈ g.pending
  allowlisted : approval.pubkey ∈ g.allowlistedSigners
  unexpired : now ≤ approval.expiresAtUnix
  freshNonce : approval.nonce ∉ g.usedNonces
  isKey : cr.isKey approval.pubkey = true
  signed : approval.SignedFor cr hash

/-- An approval is accepted exactly when every check passes, and then the gate burns it. -/
theorem decide_of_accepts {g : Rule9Gate} {p : PendingAction} {ap : Approval} {now at' : UInt64}
    (h : g.Accepts cr p.hash ap now) :
    g.decide cr p ap now at' = (.ok .approved, g.approve p.hash ap at') := by
  have hexp : ¬ now > ap.expiresAtUnix := by simpa using h.unexpired
  have hsig : cr.verify ap.pubkey (ap.messageFor p.hash) ap.signature = true := h.signed
  simp only [decide, h.isPending, h.allowlisted, hexp, h.freshNonce, h.isKey, hsig,
    not_true_eq_false, if_false]

/-- **The inversion of `decide`**: a refusal leaves the gate as it was and happens only when some
check fails; otherwise every check passed and the gate burned the approval. -/
theorem decide_cases (g : Rule9Gate) (p : PendingAction) (ap : Approval) (now at' : UInt64) :
    (∃ e, g.decide cr p ap now at' = (.error e, g) ∧ ¬ g.Accepts cr p.hash ap now ∧
      (e = .actionNotPending ↔ p.hash ∉ g.pending)) ∨
    (g.Accepts cr p.hash ap now ∧
      g.decide cr p ap now at' = (.ok .approved, g.approve p.hash ap at')) := by
  by_cases h : g.Accepts cr p.hash ap now
  · exact .inr ⟨h, decide_of_accepts cr h⟩
  · refine .inl ?_
    by_cases hp : p.hash ∈ g.pending
    · -- past the pending check: whichever later check fails, it is not `ActionNotPending`
      have other : ∀ e : GateError, e ≠ .actionNotPending →
          (e = .actionNotPending ↔ p.hash ∉ g.pending) :=
        fun e he => ⟨fun heq => absurd heq he, fun hn => absurd hp hn⟩
      unfold decide
      rw [if_neg (not_not.mpr hp)]
      split
      · exact ⟨_, rfl, h, other _ nofun⟩
      next hs =>
      split
      · exact ⟨_, rfl, h, other _ nofun⟩
      next he =>
      split
      · exact ⟨_, rfl, h, other _ nofun⟩
      next hn =>
      split
      · exact ⟨_, rfl, h, other _ nofun⟩
      next hk =>
      split
      · exact ⟨_, rfl, h, other _ nofun⟩
      next hv =>
      exact absurd ⟨hp, not_not.mp hs, UInt64.not_lt.mp he, hn, not_not.mp hk, not_not.mp hv⟩ h
    · refine ⟨.actionNotPending, ?_, h, by simp only [hp, not_false_eq_true]⟩
      unfold decide
      rw [if_pos hp]

/-- A refused `decide` changes nothing. -/
theorem decide_error {g : Rule9Gate} {p : PendingAction} {ap : Approval} {now at' : UInt64}
    {e : GateError} (h : (g.decide cr p ap now at').1 = .error e) :
    (g.decide cr p ap now at').2 = g := by
  rcases decide_cases cr g p ap now at' with ⟨e', hd, -⟩ | ⟨-, hd⟩
  · rw [hd]
  · rw [hd] at h
    cases h

/-- An accepted `decide` passed every check. -/
theorem accepts_of_ok {g : Rule9Gate} {p : PendingAction} {ap : Approval} {now at' : UInt64}
    {d : Decision} (h : (g.decide cr p ap now at').1 = .ok d) : g.Accepts cr p.hash ap now := by
  rcases decide_cases cr g p ap now at' with ⟨e', hd, -⟩ | ⟨ha, -⟩
  · rw [hd] at h
    cases h
  · exact ha

/-- `decide` fails with `ActionNotPending` exactly on a hash that is not pending. -/
theorem decide_actionNotPending_iff {g : Rule9Gate} {p : PendingAction} {ap : Approval}
    {now at' : UInt64} :
    (g.decide cr p ap now at').1 = .error .actionNotPending ↔ p.hash ∉ g.pending := by
  rcases decide_cases cr g p ap now at' with ⟨e, hd, -, he⟩ | ⟨ha, hd⟩
  · rw [hd, ← he]
    simp
  · rw [hd]
    simpa using ha.isPending

/-- `decide_cases` for the one-shot entry: the action is submitted first, and stays pending when the
approval is refused. -/
theorem submitAndDecide_cases (g : Rule9Gate) (a : ActionRequest) (ap : Approval)
    (now at' : UInt64) :
    (∃ e, g.submitAndDecide cr a ap now at' = (.error e, (g.submit cr a).2)) ∨
    ((g.submit cr a).2.Accepts cr (a.hash cr) ap now ∧
      g.submitAndDecide cr a ap now at' =
        (.ok .approved, (g.submit cr a).2.approve (a.hash cr) ap at')) := by
  rcases decide_cases cr (g.submit cr a).2 (g.submit cr a).1 ap now at' with
    ⟨e, hd, -⟩ | ⟨accepts, hd⟩
  · exact .inl ⟨e, hd⟩
  · exact .inr ⟨accepts, hd⟩

/-! ## The gate as a service -/

end Rule9Gate

/-- The calls a gate serves. -/
inductive GateCall
  | submit (action : ActionRequest)
  | decide (pending : PendingAction) (approval : Approval) (now auditNow : UInt64)
  | deny (pending : PendingAction) (auditNow : UInt64)
  | submitAndDecide (action : ActionRequest) (approval : Approval) (now auditNow : UInt64)

inductive GateReply
  | submitted (pending : PendingAction)
  | decided (result : Except GateError Decision)
  | denied (decision : Decision)

/-- One gate serving its calls. -/
def Rule9Gate.service (cr : Crypto) : Service Rule9Gate GateCall GateReply where
  handle g
    | .submit action =>
      let (pending, g) := g.submit cr action
      (.submitted pending, g)
    | .decide pending approval now auditNow =>
      let (result, g) := g.decide cr pending approval now auditNow
      (.decided result, g)
    | .deny pending auditNow =>
      let (decision, g) := g.deny pending auditNow
      (.denied decision, g)
    | .submitAndDecide action approval now auditNow =>
      let (result, g) := g.submitAndDecide cr action approval now auditNow
      (.decided result, g)

end GooseClaw
