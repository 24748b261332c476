import GooseClaw.Gate.Handles

/-!
# What a refusal leaves behind

A refused `decide` returns before anything is written, so whatever an adversary tries, the honest
approval still works: refused calls can be erased from a run (`decide_rejections_invisible`).

`submitAndDecide` writes before it can be refused. Its `submit` has entered the action by the time
`decide` says no, and the handle that could take the entry out again is dropped with the error. The
call leaves no trace exactly when the action was pending anyway or the approval is accepted
(`noTrace_iff`); otherwise the entry stays, one for each action tried (`after_attempts`).
-/

namespace GooseClaw

open Found

namespace Rule9Gate

variable (cr : Crypto)

/-! ## Refused decisions -/

/-- The exchange of a `decide` call that was refused. -/
def refusedDecide : GateCall × GateReply → Bool
  | (.decide .., .decided (.error _)) => true
  | _ => false

/-- A refused `decide` leaves the gate as it found it. -/
theorem handle_of_refusedDecide (g : Rule9Gate) (c : GateCall)
    (h : refusedDecide (c, ((service cr).handle g c).1) = true) :
    ((service cr).handle g c).2 = g := by
  cases c with
  | decide p ap now auditNow =>
    rcases decide_cases cr g p ap now auditNow with ⟨e, hd, -⟩ | ⟨-, hd⟩
    · simp only [service, hd]
    · simp only [service, hd, refusedDecide, Bool.false_eq_true] at h
  | submit a => cases h
  | deny p auditNow => cases h
  | submitAndDecide a ap now auditNow => cases h

/-- The calls of a run without the `decide` calls that were refused. -/
def honest (g : Rule9Gate) (calls : List GateCall) : List GateCall :=
  (service cr).kept g (fun ex => !refusedDecide ex) calls

/-- **Refused decisions are invisible.** Without them every other call of the run is answered as it
was and the gate ends in the same state; so an approval that passes every check there is accepted,
whatever was refused before it. -/
theorem decide_rejections_invisible (g : Rule9Gate) (calls : List GateCall) :
    (service cr).exchanges g (honest cr g calls) =
        ((service cr).exchanges g calls).filter (fun ex => !refusedDecide ex) ∧
      (service cr).after g (honest cr g calls) = (service cr).after g calls ∧
      ∀ (p : PendingAction) (ap : Approval) (now auditNow : UInt64),
        ((service cr).after g (honest cr g calls)).Accepts cr p.hash ap now →
        (((service cr).after g calls).decide cr p ap now auditNow).1 = .ok .approved := by
  have idle : ∀ (g : Rule9Gate) (c : GateCall),
      (!refusedDecide (c, ((service cr).handle g c).1)) = false →
      ((service cr).handle g c).2 = g := by
    intro g c h
    rw [Bool.not_eq_false'] at h
    exact handle_of_refusedDecide cr g c h
  obtain ⟨hex, hafter⟩ := (service cr).erasure (fun ex => !refusedDecide ex) idle g calls
  refine ⟨hex, hafter, ?_⟩
  intro p ap now auditNow accepts
  have accepts' : ((service cr).after g calls).Accepts cr p.hash ap now := by
    rw [← hafter]
    exact accepts
  rw [decide_of_accepts cr accepts']

/-! ## Refused one-shot requests -/

/-- Every check `decide` makes besides the pending one. -/
structure Authorizes (g : Rule9Gate) (hash : ActionHash) (approval : Approval) (now : UInt64) :
    Prop where
  allowlisted : approval.pubkey ∈ g.allowlistedSigners
  unexpired : now ≤ approval.expiresAtUnix
  freshNonce : approval.nonce ∉ g.usedNonces
  isKey : cr.isKey approval.pubkey = true
  signed : approval.SignedFor cr hash

/-- The gate accepts what is pending and authorized. -/
theorem accepts_iff {g : Rule9Gate} {hash : ActionHash} {ap : Approval} {now : UInt64} :
    g.Accepts cr hash ap now ↔ hash ∈ g.pending ∧ g.Authorizes cr hash ap now := by
  constructor
  · intro h
    exact ⟨h.isPending, h.allowlisted, h.unexpired, h.freshNonce, h.isKey, h.signed⟩
  · rintro ⟨hp, h⟩
    exact ⟨hp, h.allowlisted, h.unexpired, h.freshNonce, h.isKey, h.signed⟩

/-- Submitting makes the action pending and changes no other check. -/
theorem submit_accepts_iff {g : Rule9Gate} {a : ActionRequest} {ap : Approval} {now : UInt64} :
    (g.submit cr a).2.Accepts cr (a.hash cr) ap now ↔ g.Authorizes cr (a.hash cr) ap now := by
  have hp : a.hash cr ∈ (g.submit cr a).2.pending := Finset.mem_insert_self _ _
  rw [accepts_iff]
  constructor
  · rintro ⟨-, h⟩
    exact ⟨h.allowlisted, h.unexpired, h.freshNonce, h.isKey, h.signed⟩
  · intro h
    exact ⟨hp, h.allowlisted, h.unexpired, h.freshNonce, h.isKey, h.signed⟩

/-- A one-shot request is refused exactly when its approval does not authorize the action, and then
the gate is left as the submission made it. -/
theorem submitAndDecide_refused_iff (g : Rule9Gate) (a : ActionRequest) (ap : Approval)
    (now auditNow : UInt64) :
    (∃ e, g.submitAndDecide cr a ap now auditNow = (.error e, (g.submit cr a).2)) ↔
      ¬ g.Authorizes cr (a.hash cr) ap now := by
  rw [← submit_accepts_iff]
  rcases decide_cases cr (g.submit cr a).2 (g.submit cr a).1 ap now auditNow with
    ⟨e, hd, hno, -⟩ | ⟨accepts, hd⟩
  · exact ⟨fun _ => hno, fun _ => ⟨e, hd⟩⟩
  · constructor
    · rintro ⟨e, he⟩
      have hok : g.submitAndDecide cr a ap now auditNow =
          (.ok .approved, (g.submit cr a).2.approve (a.hash cr) ap auditNow) := hd
      rw [hok] at he
      cases he
    · intro hno
      exact absurd accepts hno

/-- What a caller of the one-shot entry may expect of a refusal: the gate is as it was, so nothing
piles up in the pending set and no handle that could not be decided becomes decidable. -/
structure NoTrace (g : Rule9Gate) (a : ActionRequest) (ap : Approval) (now auditNow : UInt64) :
    Prop where
  unchanged : ∀ e, (g.submitAndDecide cr a ap now auditNow).1 = .error e →
    (g.submitAndDecide cr a ap now auditNow).2 = g
  bounded : ∀ e, (g.submitAndDecide cr a ap now auditNow).1 = .error e →
    (g.submitAndDecide cr a ap now auditNow).2.pending.card ≤ g.pending.card
  settled : ∀ e, (g.submitAndDecide cr a ap now auditNow).1 = .error e →
    ∀ (p : PendingAction) (ap' : Approval) (now' auditNow' : UInt64),
      (g.decide cr p ap' now' auditNow').1 = .error .actionNotPending →
      ((g.submitAndDecide cr a ap now auditNow).2.decide cr p ap' now' auditNow').1 =
        .error .actionNotPending

/-- A call that changes the gate only when it succeeds leaves no trace. -/
theorem NoTrace.of_unchanged {g : Rule9Gate} {a : ActionRequest} {ap : Approval}
    {now auditNow : UInt64}
    (h : ∀ e, (g.submitAndDecide cr a ap now auditNow).1 = .error e →
      (g.submitAndDecide cr a ap now auditNow).2 = g) : g.NoTrace cr a ap now auditNow where
  unchanged := h
  bounded e he := by rw [h e he]
  settled e he p ap' now' auditNow' hp := by
    rw [h e he]
    exact hp

/-- **A refused one-shot request leaves no trace exactly when its action was pending before it**; a
request whose approval is good is not refused. -/
theorem noTrace_iff (g : Rule9Gate) (a : ActionRequest) (ap : Approval) (now auditNow : UInt64) :
    g.NoTrace cr a ap now auditNow ↔
      a.hash cr ∈ g.pending ∨ g.Authorizes cr (a.hash cr) ap now := by
  constructor
  · intro h
    by_cases hauth : g.Authorizes cr (a.hash cr) ap now
    · exact .inr hauth
    · obtain ⟨e, he⟩ := (submitAndDecide_refused_iff cr g a ap now auditNow).mpr hauth
      have hg := h.unchanged e (by rw [he])
      rw [he] at hg
      refine .inl ?_
      rw [← hg]
      exact Finset.mem_insert_self _ _
  · intro h
    apply NoTrace.of_unchanged
    intro e he
    rcases submitAndDecide_cases cr g a ap now auditNow with ⟨e', hd⟩ | ⟨-, hd⟩
    · rcases h with hp | hauth
      · -- entering a pending action changes nothing
        rw [hd, submit, Finset.insert_eq_of_mem hp]
      · exact absurd hauth ((submitAndDecide_refused_iff cr g a ap now auditNow).mp ⟨e', hd⟩)
    · rw [hd] at he
      cases he

/-- The gate after the sample action was submitted twice and one of the two handles was denied. -/
def deniedGate : Rule9Gate :=
  (service Desk.sampleCrypto).after (new [Desk.sampleSigner])
    [.submit Desk.sampleAction, .submit Desk.sampleAction,
      .deny ⟨Desk.sampleAction.hash Desk.sampleCrypto, ""⟩ 50]

/-- A stranger's approval: its signer is not allowlisted. -/
def strangersApproval : Approval := ⟨.fill 32 9, .fill 32 1, 100, .fill 64 0⟩

/-- A stranger's refused request brings a denied action back. The denied handle is gone with its denial,
but the other one of the same hash, which was settled with it, can be decided again. -/
theorem refused_request_revives :
    ¬ deniedGate.NoTrace Desk.sampleCrypto Desk.sampleAction strangersApproval 60 60 := by
  intro h
  have hdenied := h.settled .unknownSigner rfl
    ⟨Desk.sampleAction.hash Desk.sampleCrypto, ""⟩ (Desk.sampleApproval 1) 61 61 rfl
  cases hdenied

/-! ## Attempts that pile up -/

/-- One request through `submit_and_decide`. -/
structure Attempt where
  action : ActionRequest
  approval : Approval
  now : UInt64
  auditNow : UInt64

def Attempt.call (t : Attempt) : GateCall :=
  .submitAndDecide t.action t.approval t.now t.auditNow

/-- **Unauthenticated attempts pile up**: each leaves its action in the pending set, and nothing else
changes. -/
theorem after_attempts (g : Rule9Gate) (attempts : List Attempt)
    (unknown : ∀ t ∈ attempts, t.approval.pubkey ∉ g.allowlistedSigners) :
    (service cr).after g (attempts.map Attempt.call) =
      { g with pending := g.pending ∪ (attempts.map fun t => t.action.hash cr).toFinset } := by
  induction attempts generalizing g with
  | nil => simp
  | cons t ts ih =>
    have hno : ¬ g.Authorizes cr (t.action.hash cr) t.approval t.now := by
      intro h
      exact unknown t (List.mem_cons_self) h.allowlisted
    obtain ⟨e, he⟩ :=
      (submitAndDecide_refused_iff cr g t.action t.approval t.now t.auditNow).mpr hno
    have hstep : ((service cr).handle g t.call).2 = (g.submit cr t.action).2 := by
      simp only [service, Attempt.call, he]
    rw [List.map_cons, Service.after, hstep, ih]
    · simp [submit, Finset.insert_union]
    · intro t' ht'
      exact unknown t' (List.mem_cons_of_mem t ht')

end Rule9Gate

end GooseClaw
