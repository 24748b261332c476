import Mathlib.Data.Finset.Card
import GooseClaw.Gate.Rule9

/-!
# The audit log of a run

What a run of calls on one gate leaves in its audit log, its nonces and its pending set, whatever
the calls are: any handles, any approvals, any clock readings.

`Rule9Gate.Sound` ties the four components of the gate to the run's history, which is two lists:
the approvals `decide` accepted and the hashes submitted. Its three step lemmas follow the three
ways a gate changes (`submit`, `approve`, `deny`), and `sound_run` is the run lemma. The audit log
is the list of records the exchanges wrote (`audit_after`), so it only grows at its end.
-/

namespace GooseClaw

open Found

/-- An approval that `decide` accepted: for which action hash, and at which clock readings. -/
structure Acceptance where
  action : ActionHash
  approval : Approval
  now : UInt64
  auditNow : UInt64
  deriving DecidableEq

namespace Acceptance

/-- The audit record of the acceptance. -/
def record (acc : Acceptance) : AuditRecord :=
  ⟨acc.auditNow, acc.action, .approved, some acc.approval.pubkey⟩

/-- The message the approval signs. -/
def signedMessage (acc : Acceptance) : List UInt8 := acc.approval.messageFor acc.action

/-- What the gate owes for an acceptance: an allowlisted key, a signature over exactly the
action's message, a clock reading not above the expiry. -/
structure Authentic (cr : Crypto) (signers : Finset (Bytes 32)) (acc : Acceptance) : Prop where
  allowlisted : acc.approval.pubkey ∈ signers
  isKey : cr.isKey acc.approval.pubkey = true
  signed : cr.verify acc.approval.pubkey acc.signedMessage acc.approval.signature = true
  unexpired : acc.now ≤ acc.approval.expiresAtUnix

end Acceptance

/-! ## Reading an exchange -/

/-- The acceptance an exchange shows: a `decide`, or the `decide` inside a `submit_and_decide`, that
answered `Ok`. -/
def acceptance? (cr : Crypto) : GateCall × GateReply → Option Acceptance
  | (.decide p ap now auditNow, .decided (.ok _)) => some ⟨p.hash, ap, now, auditNow⟩
  | (.submitAndDecide a ap now auditNow, .decided (.ok _)) => some ⟨a.hash cr, ap, now, auditNow⟩
  | _ => none

/-- The hash a call submits. -/
def submitted? (cr : Crypto) : GateCall → Option ActionHash
  | .submit a => some (a.hash cr)
  | .submitAndDecide a _ _ _ => some (a.hash cr)
  | _ => none

/-- The audit record an exchange writes. -/
def record? (cr : Crypto) : GateCall × GateReply → Option AuditRecord
  | (.deny p auditNow, _) => some ⟨auditNow, p.hash, .denied, none⟩
  | ex => (acceptance? cr ex).map Acceptance.record

/-- The acceptances of a run's exchanges, in order. -/
def acceptances (cr : Crypto) (log : List (GateCall × GateReply)) : List Acceptance :=
  log.filterMap (acceptance? cr)

/-- The hashes a run's calls submit, in order. -/
def submissions (cr : Crypto) (calls : List GateCall) : List ActionHash :=
  calls.filterMap (submitted? cr)

/-- An audit record that approves the action hash. -/
def AuditRecord.approves (h : ActionHash) (r : AuditRecord) : Bool :=
  r.decision = .approved ∧ r.action = h

/-! ## The invariant -/

/-- The gate's state tied to what has happened: the acceptances and the submissions so far. -/
structure Rule9Gate.Sound (cr : Crypto) (signers : Finset (Bytes 32)) (accs : List Acceptance)
    (subs : List ActionHash) (g : Rule9Gate) : Prop where
  allowlist : g.allowlistedSigners = signers
  approvals : g.audit.filter (·.decision = .approved) = accs.map Acceptance.record
  authentic : ∀ acc ∈ accs, acc.Authentic cr signers
  noncesNodup : (accs.map (·.approval.nonce)).Nodup
  usedNonces : g.usedNonces = (accs.map (·.approval.nonce)).toFinset
  budget : ∀ h, g.audit.countP (AuditRecord.approves h) + (if h ∈ g.pending then 1 else 0) ≤
    subs.count h

namespace Rule9Gate.Sound

variable {cr : Crypto} {signers : Finset (Bytes 32)} {accs : List Acceptance}
  {subs : List ActionHash} {g : Rule9Gate}

theorem new (signers : List (Bytes 32)) :
    (Rule9Gate.new signers).Sound cr signers.toFinset [] [] where
  allowlist := rfl
  approvals := rfl
  authentic := by simp
  noncesNodup := List.nodup_nil
  usedNonces := rfl
  budget := by simp [Rule9Gate.new]

theorem submit (s : g.Sound cr signers accs subs) (a : ActionRequest) :
    (g.submit cr a).2.Sound cr signers accs (subs ++ [a.hash cr]) where
  allowlist := s.allowlist
  approvals := s.approvals
  authentic := s.authentic
  noncesNodup := s.noncesNodup
  usedNonces := s.usedNonces
  budget h := by
    have hb := s.budget h
    simp only [Rule9Gate.submit, Finset.mem_insert, List.count_append]
    by_cases heq : h = a.hash cr
    · subst heq
      simp only [true_or, if_true, List.count_singleton_self]
      split at hb <;> omega
    · simp only [heq, false_or]
      omega

theorem approve (s : g.Sound cr signers accs subs) {hash : ActionHash} {ap : Approval}
    {now auditNow : UInt64} (ok : g.Accepts cr hash ap now) :
    (g.approve hash ap auditNow).Sound cr signers (accs ++ [⟨hash, ap, now, auditNow⟩]) subs where
  allowlist := s.allowlist
  approvals := by
    simp only [Rule9Gate.approve, List.filter_append, List.map_append, s.approvals]
    rfl
  authentic acc hacc := by
    rcases mem_snoc.mp hacc with hold | rfl
    · exact s.authentic acc hold
    · exact ⟨s.allowlist ▸ ok.allowlisted, ok.isKey, ok.signed, ok.unexpired⟩
  noncesNodup := by
    have hfresh : ap.nonce ∉ accs.map (·.approval.nonce) := by
      have hunused := ok.freshNonce
      rwa [s.usedNonces, List.mem_toFinset] at hunused
    rw [List.map_append, List.map_singleton, List.nodup_append_comm, List.singleton_append,
      List.nodup_cons]
    exact ⟨hfresh, s.noncesNodup⟩
  usedNonces := by
    ext n
    simp only [Rule9Gate.approve, s.usedNonces, Finset.mem_insert, List.mem_toFinset,
      List.map_append, List.map_singleton, List.mem_append, List.mem_singleton]
    exact or_comm
  budget h := by
    -- the hash leaves the pending set exactly as its Approved record enters the log
    have hb := s.budget h
    simp only [Rule9Gate.approve, List.countP_append, List.countP_singleton, Finset.mem_erase]
    by_cases heq : h = hash
    · subst heq
      rw [if_pos ok.isPending] at hb
      simpa [AuditRecord.approves] using hb
    · have hne : ¬ hash = h := fun h' => heq h'.symm
      simpa [AuditRecord.approves, heq, hne] using hb

theorem deny (s : g.Sound cr signers accs subs) (p : PendingAction) (auditNow : UInt64) :
    (g.deny p auditNow).2.Sound cr signers accs subs where
  allowlist := s.allowlist
  approvals := by
    simp [Rule9Gate.deny, List.filter_append, s.approvals]
  authentic := s.authentic
  noncesNodup := s.noncesNodup
  usedNonces := s.usedNonces
  budget h := by
    have hb := s.budget h
    have haudit : (g.deny p auditNow).2.audit.countP (AuditRecord.approves h) =
        g.audit.countP (AuditRecord.approves h) := by
      simp [Rule9Gate.deny, List.countP_append, AuditRecord.approves]
    have hpend : (if h ∈ (g.deny p auditNow).2.pending then 1 else 0) ≤
        if h ∈ g.pending then 1 else 0 := by
      rw [deny_pending]
      by_cases hp : h ∈ g.pending
      · rw [if_pos hp]
        split <;> omega
      · rw [if_neg (fun he => hp (Finset.mem_of_mem_erase he))]
        exact Nat.zero_le _
    rw [haudit]
    exact (Nat.add_le_add_left hpend _).trans hb

end Rule9Gate.Sound

/-! ## One call -/

variable (cr : Crypto)

/-- **The step lemma.** One call keeps the gate sound for the history it extends. -/
theorem Rule9Gate.sound_handle {signers : Finset (Bytes 32)} {accs : List Acceptance}
    {subs : List ActionHash} {g : Rule9Gate} (s : g.Sound cr signers accs subs) (c : GateCall) :
    ((service cr).handle g c).2.Sound cr signers
      (accs ++ (acceptance? cr (c, ((service cr).handle g c).1)).toList)
      (subs ++ (submitted? cr c).toList) := by
  cases c with
  | submit a =>
    simpa [service, acceptance?, submitted?] using s.submit a
  | deny p auditNow =>
    simpa [service, acceptance?, submitted?] using s.deny p auditNow
  | decide p ap now auditNow =>
    rcases decide_cases cr g p ap now auditNow with ⟨e, hd, -⟩ | ⟨ok, hd⟩
    · simpa [service, acceptance?, submitted?, hd] using s
    · simpa [service, acceptance?, submitted?, hd] using s.approve ok
  | submitAndDecide a ap now auditNow =>
    have s' := s.submit a
    rcases submitAndDecide_cases cr g a ap now auditNow with ⟨e, hd⟩ | ⟨ok, hd⟩
    · simpa [service, acceptance?, submitted?, hd] using s'
    · simpa [service, acceptance?, submitted?, hd] using s'.approve ok

/-- One call appends the record it writes, if any. -/
theorem Rule9Gate.audit_handle (g : Rule9Gate) (c : GateCall) :
    ((service cr).handle g c).2.audit =
      g.audit ++ (record? cr (c, ((service cr).handle g c).1)).toList := by
  cases c with
  | submit a => simp [service, submit, record?, acceptance?]
  | deny p auditNow => simp [service, deny, record?]
  | decide p ap now auditNow =>
    rcases decide_cases cr g p ap now auditNow with ⟨e, hd, -⟩ | ⟨ok, hd⟩
    · simp [service, record?, acceptance?, hd]
    · simp [service, record?, acceptance?, hd, approve, Acceptance.record]
  | submitAndDecide a ap now auditNow =>
    rcases submitAndDecide_cases cr g a ap now auditNow with ⟨e, hd⟩ | ⟨ok, hd⟩
    · simp [service, record?, acceptance?, hd]
    · simp [service, record?, acceptance?, hd, approve, Acceptance.record]

/-! ## Runs -/

/-- **The run lemma.** Every run keeps the gate sound for its own history. -/
theorem Rule9Gate.sound_run (signers : List (Bytes 32)) (calls : List GateCall) :
    ((service cr).after (new signers) calls).Sound cr signers.toFinset
      (acceptances cr ((service cr).exchanges (new signers) calls)) (submissions cr calls) := by
  have h := (service cr).history
    (P := fun log g => g.Sound cr signers.toFinset (acceptances cr log)
      (submissions cr (log.map Prod.fst)))
    (Sound.new signers)
    (fun log g c s => by
      simp only [acceptances, submissions, List.map_append, List.map_singleton, filterMap_snoc]
      exact sound_handle cr s c)
    calls
  rwa [Service.exchanges_calls] at h

/-- The audit log of a run is what its exchanges wrote, after what was there. -/
theorem Rule9Gate.audit_after (g : Rule9Gate) (calls : List GateCall) :
    ((service cr).after g calls).audit =
      g.audit ++ ((service cr).exchanges g calls).filterMap (record? cr) := by
  induction calls generalizing g with
  | nil => simp
  | cons c cs ih =>
    simp only [Service.after, Service.exchanges, ih, audit_handle, List.append_assoc]
    cases h : record? cr (c, ((service cr).handle g c).1) <;>
      simp only [List.filterMap_cons, h, Option.toList_none, Option.toList_some, List.nil_append,
        List.singleton_append]

/-- An Approved record is written by an acceptance. -/
theorem acceptance_of_record {ex : GateCall × GateReply} {r : AuditRecord}
    (h : record? cr ex = some r) (hr : r.decision = .approved) :
    ∃ acc, acceptance? cr ex = some acc ∧ acc.record = r := by
  obtain ⟨c, reply⟩ := ex
  cases c with
  | deny p auditNow =>
    simp only [record?, Option.some.injEq] at h
    subst h
    cases hr
  | _ => exact Option.map_eq_some_iff.mp h

/-- **Every Approved record was appended by a `decide` call**: the run splits at that call, whose
record is the next entry of the log. -/
theorem Rule9Gate.approved_appended (signers : List (Bytes 32)) (calls : List GateCall)
    {r : AuditRecord} (hmem : r ∈ ((service cr).after (new signers) calls).audit)
    (hr : r.decision = .approved) :
    ∃ before c later acc, calls = before ++ c :: later ∧
      acceptance? cr
        (c, ((service cr).handle ((service cr).after (new signers) before) c).1) = some acc ∧
      ((service cr).after (new signers) (before ++ [c])).audit =
        ((service cr).after (new signers) before).audit ++ [r] ∧
      acc.record = r ∧ acc.Authentic cr signers.toFinset := by
  induction calls using List.reverseRecOn with
  | nil => simp [new] at hmem
  | append_singleton cs c ih =>
    have happ := audit_handle cr ((service cr).after (new signers) cs) c
    rw [Service.after_snoc, happ] at hmem
    rcases List.mem_append.mp hmem with hold | hnew
    · obtain ⟨before, c', later, acc, rfl, hacc, hlog, hrec, hauth⟩ := ih hold
      exact ⟨before, c', later ++ [c], acc, by simp, hacc, hlog, hrec, hauth⟩
    · rw [Option.mem_toList] at hnew
      obtain ⟨acc, hacc, hrec⟩ := acceptance_of_record cr hnew hr
      refine ⟨cs, c, [], acc, rfl, hacc, ?_, hrec, ?_⟩
      · rw [Service.after_snoc, happ, hnew, Option.toList_some]
      · have hs := sound_handle cr (sound_run cr signers cs) c
        refine hs.authentic acc (List.mem_append_right _ ?_)
        rw [hacc, Option.toList_some]
        exact List.mem_singleton_self acc

/-- The audit log only grows at its end. -/
theorem Rule9Gate.audit_grows (g : Rule9Gate) (calls more : List GateCall) :
    ((service cr).after g calls).audit <+: ((service cr).after g (calls ++ more)).audit := by
  rw [Service.after_append, audit_after cr ((service cr).after g calls)]
  exact List.prefix_append _ _

/-- Of a list mapped without repetition, at most one entry maps to a given value. -/
private theorem length_filter_le_one {α β : Type} [DecidableEq β] (f : α → β) (b : β) :
    ∀ {l : List α}, (l.map f).Nodup → (l.filter (f · = b)).length ≤ 1
  | [], _ => Nat.zero_le _
  | a :: l, h => by
    obtain ⟨hnot, hrest⟩ := List.nodup_cons.mp h
    by_cases ha : f a = b
    · have hnil : l.filter (f · = b) = [] := by
        apply List.filter_eq_nil_iff.mpr
        intro x hx hfx
        exact hnot (ha ▸ of_decide_eq_true hfx ▸ List.mem_map_of_mem hx)
      simp [ha, hnil]
    · simpa [List.filter_cons, ha] using length_filter_le_one f b hrest

/-- Distinct nonces make distinct signed messages. -/
theorem Rule9Gate.Sound.messages_nodup {signers : Finset (Bytes 32)} {accs : List Acceptance}
    {subs : List ActionHash} {g : Rule9Gate} (s : g.Sound cr signers accs subs) :
    (accs.map Acceptance.signedMessage).Nodup := by
  have hn := s.noncesNodup
  unfold List.Nodup at hn ⊢
  rw [List.pairwise_map] at hn ⊢
  exact hn.imp fun hne heq => hne (Approval.message_inj heq).2.1

/-- **A run of the gate accounts for every approval.** For every allowlist and every run: the log
grows at its end; every Approved record was appended by a `decide` whose approval is authentic
for that record's action; the accepted approvals are, in order, the Approved records; their nonces
are distinct and are the used nonces; no signed message is accepted twice; and no action hash has
more approvals, its pending entry counted in, than submissions. -/
theorem Rule9Gate.run_accounts (signers : List (Bytes 32)) (calls : List GateCall) :
    let gate := (service cr).after (new signers)
    let accs := acceptances cr ((service cr).exchanges (new signers) calls)
    (∀ more, (gate calls).audit <+: (gate (calls ++ more)).audit) ∧
    (∀ r ∈ (gate calls).audit, r.decision = .approved →
      ∃ before c later acc, calls = before ++ c :: later ∧
        acceptance? cr (c, ((service cr).handle (gate before) c).1) = some acc ∧
        (gate (before ++ [c])).audit = (gate before).audit ++ [r] ∧
        acc.record = r ∧ acc.Authentic cr signers.toFinset) ∧
    (gate calls).audit.filter (·.decision = .approved) = accs.map Acceptance.record ∧
    (accs.map (·.approval.nonce)).Nodup ∧
    (gate calls).usedNonces = (accs.map (·.approval.nonce)).toFinset ∧
    (∀ message, (accs.filter (·.signedMessage = message)).length ≤ 1) ∧
    ∀ h, (gate calls).audit.countP (AuditRecord.approves h) +
      (if h ∈ (gate calls).pending then 1 else 0) ≤ (submissions cr calls).count h := by
  have s := sound_run cr signers calls
  exact ⟨fun more => audit_grows cr _ calls more,
    fun r hmem hr => approved_appended cr signers calls hmem hr,
    s.approvals, s.noncesNodup, s.usedNonces,
    fun m => length_filter_le_one _ m s.messages_nodup, s.budget⟩

end GooseClaw
