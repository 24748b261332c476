import Mathlib.Algebra.BigOperators.Group.Finset.Basic
import Mathlib.Algebra.BigOperators.Group.Finset.Piecewise
import Mathlib.Algebra.BigOperators.Group.Multiset.Basic
import Mathlib.Data.UInt
import GooseClaw.Acp.Spike
import GooseClaw.Gate.Rejections
import GooseClaw.Session.Log

/-!
# Runs of the supervisor

What holds of `spike` however its threads interleave. The gate is passed under its lock, so a handler's
decision is about its own action even when other requests ask for the same one: the approvals of the audit
log are, one to one, the approved requests (`Spike.run_gated`). The simulated human signs what the gate
will accept, and only a nonce used before or a clock that ran on stand in the way
(`Spike.run_approves`).

The decision is recorded before it is answered. When all is answered the session files tell every
decision, in whichever of them it was put (`Spike.run_logged`).
-/

namespace GooseClaw

open Found

/-! ## The gate's lock -/

section

variable {cr : Crypto} {signer : SigningKey} (pid : UInt32)

/-- What a request needs at the gate: a nonce that is new, and a check within two minutes. -/
structure Timely (cr : Crypto) (pid : UInt32) (gate : Rule9Gate) (readings : Readings) : Prop where
  unexpired : readings.checkedAt ≤ readings.signedAt + 120
  fresh : randFreeNonce cr pid readings.nanos ∉ gate.usedNonces

/-- **A pass through the gate** approves what is timely and refuses the rest. -/
theorem gatePass_cases (lawful : signer.Lawful cr) {gate : Rule9Gate}
    (allow : signer.pubkey ∈ gate.allowlistedSigners) (action : ActionRequest) (readings : Readings) :
    (Timely cr pid gate readings ∧ ∃ approval : Approval,
      approval.nonce = randFreeNonce cr pid readings.nanos ∧ approval.pubkey = signer.pubkey ∧
      gatePass cr signer pid gate action readings = (.ok .approved,
        (gate.submit cr action).2.approve (action.hash cr) approval readings.auditedAt)) ∨
    (¬ Timely cr pid gate readings ∧ ∃ e, (e = .expired ∨ e = .nonceReused) ∧
      gatePass cr signer pid gate action readings = (.error e, (gate.submit cr action).2)) := by
  have hpending : action.hash cr ∈ (gate.submit cr action).2.pending := Finset.mem_insert_self _ _
  by_cases htimely : Timely cr pid gate readings
  · refine .inl ⟨htimely, humanSign cr signer pid (gate.submit cr action).1 readings, rfl, rfl, ?_⟩
    refine Rule9Gate.decide_of_accepts cr ?_
    exact ⟨hpending, allow, htimely.unexpired, htimely.fresh, lawful.isKey, lawful.verifies _⟩
  · refine .inr ⟨htimely, ?_⟩
    have hsubmitted : (gate.submit cr action).1.hash ∈ (gate.submit cr action).2.pending := hpending
    unfold gatePass Rule9Gate.decide
    dsimp only
    rw [if_neg (not_not.mpr hsubmitted)]
    have hallowed : ¬ (humanSign cr signer pid (gate.submit cr action).1 readings).pubkey ∉
        (gate.submit cr action).2.allowlistedSigners := not_not.mpr allow
    rw [if_neg hallowed]
    split
    · exact ⟨.expired, .inl rfl, rfl⟩
    next hexpiry =>
    have hused : (humanSign cr signer pid (gate.submit cr action).1 readings).nonce ∈
        (gate.submit cr action).2.usedNonces := by
      by_contra hfresh
      exact htimely ⟨UInt64.not_lt.mp hexpiry, hfresh⟩
    rw [if_pos hused]
    exact ⟨.nonceReused, .inr rfl, rfl⟩

end

/-! ## One step -/

/-- The decision a handler has. -/
def HandlerPc.decision? : HandlerPc → Option (Except GateError Decision)
  | .decided d => some d
  | .recording d _ => some d
  | .recorded d => some d
  | .answered d _ => some d
  | _ => none

/-- The decision a handler has put in the session log. -/
def HandlerPc.recorded? : HandlerPc → Option (Except GateError Decision)
  | .recorded d => some d
  | .answered d _ => some d
  | _ => none

namespace SpikeThread

def decision? : SpikeThread → Option (Except GateError Decision)
  | .handler _ pc => pc.decision?
  | _ => none

def recorded? : SpikeThread → Option (Except GateError Decision)
  | .handler _ pc => pc.recorded?
  | _ => none

/-- The request of the thread, when it was approved. -/
def approvedRequest? : SpikeThread → Option RequestPermissionRequest
  | .handler request pc =>
    match pc.decision? with
    | some (.ok _) => some request
    | _ => none
  | _ => none

/-- The action that was approved for the thread. -/
def approved (cr : Crypto) (t : SpikeThread) : Multiset ActionHash :=
  match t.approvedRequest? with
  | some request => {request.action.hash cr}
  | none => 0

/-- The entry of its decision that the thread has put in the session log. -/
def entry (t : SpikeThread) : Multiset String :=
  match t.recorded? with
  | some d => {decisionDetail d}
  | none => 0

/-- The thread has counted its request. -/
def isCounted : SpikeThread → Bool
  | .handler _ .arrived => false
  | .handler _ _ => true
  | _ => false

def counted (t : SpikeThread) : UInt32 := if t.isCounted then 1 else 0

/-- A handler answers by its decision. -/
def Answers : SpikeThread → Prop
  | .handler request (.answered d outcome) => outcome = request.outcome d
  | _ => True

end SpikeThread

/-- The details of the decisions in the session log. -/
def SpikeState.decisions (st : SpikeState) : Multiset String :=
  ((st.appends.map Append.event).filter fun event => event.kind = .gateDecision).map SessionEvent.detail

section

variable {cr : Crypto} {signer : SigningKey} {pid : UInt32} {st st' : SpikeState}
  {t t' : SpikeThread} {act : SpikeAct}

theorem SpikeState.decisions_append_other {session : String} {kind : SessionEventKind}
    (h : kind ≠ .gateDecision) (detail : String) (atUnix : UInt64) (fate : Fate) :
    (st.append session kind detail atUnix fate).decisions = st.decisions := by
  simp [SpikeState.decisions, SpikeState.append, h]

theorem SpikeState.decisions_append {session : String} (detail : String) (atUnix : UInt64)
    (fate : Fate) : (st.append session .gateDecision detail atUnix fate).decisions =
      st.decisions + {detail} := by
  unfold SpikeState.decisions SpikeState.append
  rw [List.map_append, List.filter_append, List.map_append, ← Multiset.coe_add]
  rfl

/-- Nothing about decisions changes for the thread. -/
structure Idle (t t' : SpikeThread) : Prop where
  decision? : t'.decision? = t.decision?
  recorded? : t'.recorded? = t.recorded?
  approvedRequest? : t'.approvedRequest? = t.approvedRequest?
  counted : t'.counted = t.counted
  answers : t'.Answers

/-- What a step can do. -/
inductive SpikeMove (cr : Crypto) (signer : SigningKey) (pid : UInt32) (st : SpikeState) :
    SpikeThread → SpikeAct → SpikeState → SpikeThread → Prop
  | count {request : RequestPermissionRequest} :
      SpikeMove cr signer pid st (.handler request .arrived) .count
        { st with permissionRequests := st.permissionRequests + 1 } (.handler request .counted)
  | decide {request : RequestPermissionRequest} (readings : Readings) :
      SpikeMove cr signer pid st (.handler request .reported) (.decide readings)
        { st with gate := (gatePass cr signer pid st.gate request.action readings).2 }
        (.handler request (.decided (gatePass cr signer pid st.gate request.action readings).1))
  | record {request : RequestPermissionRequest} {d : Except GateError Decision} {session : String}
      (atUnix : UInt64) (fate : Fate) :
      SpikeMove cr signer pid st (.handler request (.recording d session)) (.append atUnix fate)
        (st.append session .gateDecision (decisionDetail d) atUnix fate) (.handler request (.recorded d))
  | respond {request : RequestPermissionRequest} {d : Except GateError Decision} :
      SpikeMove cr signer pid st (.handler request (.recorded d)) .respond st
        (.handler request (.answered d (request.outcome d)))
  | quiet {t t' : SpikeThread} {act : SpikeAct} {st' : SpikeState} (idle : Idle t t')
      (gate : st'.gate = st.gate) (requests : st'.permissionRequests = st.permissionRequests)
      (decisions : st'.decisions = st.decisions) : SpikeMove cr signer pid st t act st' t'

/-- **The inversion of a step.** -/
theorem spikeStep_move (h : spikeStep cr signer pid st t act = some (st', t')) :
    SpikeMove cr signer pid st t act st' t' := by
  cases t with
  | handler request pc =>
    obtain ⟨⟨_, pc'⟩, hstep, heq⟩ := Option.map_eq_some_iff.mp h
    cases heq
    unfold handlerStep at hstep
    split at hstep
    case h_1 =>
      cases hstep
      exact .count
    case h_3 =>
      cases hstep
      exact .quiet ⟨rfl, rfl, rfl, rfl, trivial⟩ rfl rfl
        (SpikeState.decisions_append_other (by decide) _ _ _)
    case h_4 =>
      cases hstep
      exact .decide _
    case h_6 =>
      cases hstep
      exact .record _ _
    case h_7 =>
      cases hstep
      exact .respond
    case h_8 => cases hstep
    all_goals
      cases hstep
      exact .quiet ⟨rfl, rfl, rfl, rfl, trivial⟩ rfl rfl rfl
  | notifier updateDebug pc =>
    obtain ⟨⟨_, pc'⟩, hstep, heq⟩ := Option.map_eq_some_iff.mp h
    cases heq
    unfold notifierStep at hstep
    split at hstep
    case h_1 =>
      cases hstep
      exact .quiet ⟨rfl, rfl, rfl, rfl, trivial⟩ rfl rfl rfl
    case h_2 =>
      cases hstep
      exact .quiet ⟨rfl, rfl, rfl, rfl, trivial⟩ rfl rfl
        (SpikeState.decisions_append_other (by decide) _ _ _)
    case h_3 => cases hstep
  | connection pc =>
    obtain ⟨⟨_, pc'⟩, hstep, heq⟩ := Option.map_eq_some_iff.mp h
    cases heq
    have idle : Idle (.connection pc) (.connection pc') := ⟨rfl, rfl, rfl, rfl, trivial⟩
    unfold connectionStep at hstep
    split at hstep
    case h_7 =>
      cases hstep
      exact .quiet idle rfl rfl (SpikeState.decisions_append_other (by decide) _ _ _)
    case h_9 =>
      cases hstep
      exact .quiet idle rfl rfl (SpikeState.decisions_append_other (by decide) _ _ _)
    case h_12 stop session atUnix fate =>
      cases hstep
      have hkind : stop.entry.1 ≠ .gateDecision := by
        cases stop with
        | complete stopReasonDebug => nofun
        | failed message => nofun
        | timeout => nofun
      exact .quiet idle rfl rfl (SpikeState.decisions_append_other hkind _ atUnix fate)
    case h_14 => cases hstep
    all_goals
      cases hstep
      exact .quiet idle rfl rfl rfl

/-! ## The books -/

/-- The hashes of the audit log. -/
def SpikeState.approvals (st : SpikeState) : Multiset ActionHash :=
  st.gate.audit.map AuditRecord.action

theorem SpikeMove.approvals (lawful : signer.Lawful cr)
    (allow : signer.pubkey ∈ st.gate.allowlistedSigners) (h : SpikeMove cr signer pid st t act st' t') :
    st'.approvals + t.approved cr = st.approvals + t'.approved cr := by
  cases h with
  | @decide request readings =>
    rcases gatePass_cases pid lawful allow request.action readings with
      ⟨-, approval, -, -, heq⟩ | ⟨-, e, -, heq⟩
    · rw [heq]
      unfold SpikeState.approvals
      simp only [Rule9Gate.approve, List.map_append, ← Multiset.coe_add]
      exact add_zero _
    · rw [heq]
      rfl
  | quiet idle gate requests decisions =>
    unfold SpikeState.approvals SpikeThread.approved
    rw [gate, idle.approvedRequest?]
  | _ => rfl

theorem SpikeMove.decisions (h : SpikeMove cr signer pid st t act st' t') :
    st'.decisions + t.entry = st.decisions + t'.entry := by
  cases h with
  | record atUnix fate =>
    rw [SpikeState.decisions_append]
    exact add_zero _
  | quiet idle gate requests decisions =>
    unfold SpikeThread.entry
    rw [decisions, idle.recorded?]
  | _ => rfl

theorem SpikeMove.requests (h : SpikeMove cr signer pid st t act st' t') :
    st'.permissionRequests + t.counted = st.permissionRequests + t'.counted := by
  cases h with
  | count => exact add_zero (st.permissionRequests + 1)
  | quiet idle gate requests decisions => rw [requests, idle.counted]
  | _ => rfl

/-- A step passes the gate, or leaves it alone and decides nothing. -/
theorem SpikeMove.decides (h : SpikeMove cr signer pid st t act st' t') :
    (∃ request readings, act = .decide readings ∧
      t' = .handler request (.decided (gatePass cr signer pid st.gate request.action readings).1) ∧
      st'.gate = (gatePass cr signer pid st.gate request.action readings).2) ∨
    (st'.gate = st.gate ∧ t'.decision? = t.decision?) := by
  cases h with
  | decide readings => exact .inl ⟨_, readings, rfl, rfl, rfl⟩
  | quiet idle gate requests decisions => exact .inr ⟨gate, idle.decision?⟩
  | _ => exact .inr ⟨rfl, rfl⟩

/-! ## What the gate and the threads keep -/

/-- The gate of the supervisor: one signer, and only approvals by it. -/
structure SpikeState.Sound (signer : SigningKey) (st : SpikeState) : Prop where
  allowlist : st.gate.allowlistedSigners = {signer.pubkey}
  audit : ∀ r ∈ st.gate.audit, r.decision = .approved ∧ r.signer = some signer.pubkey

/-- A decision is an approval, or one of two refusals, and answers are given by it. -/
structure SpikeThread.Sound (t : SpikeThread) : Prop where
  decided : ∀ d, t.decision? = some d →
    d = .ok .approved ∨ d = .error .expired ∨ d = .error .nonceReused
  answers : t.Answers

theorem SpikeMove.sound (lawful : signer.Lawful cr) (sound : st.Sound signer) (ht : t.Sound)
    (h : SpikeMove cr signer pid st t act st' t') : st'.Sound signer ∧ t'.Sound := by
  have allow : signer.pubkey ∈ st.gate.allowlistedSigners := by
    rw [sound.allowlist]
    exact Finset.mem_singleton_self _
  cases h with
  | count => exact ⟨⟨sound.allowlist, sound.audit⟩, nofun, trivial⟩
  | @decide request readings =>
    rcases gatePass_cases pid lawful allow request.action readings with
      ⟨-, approval, -, hkey, heq⟩ | ⟨-, e, he, heq⟩
    · rw [heq]
      refine ⟨⟨sound.allowlist, ?_⟩, ?_, trivial⟩
      · intro r hr
        rcases mem_snoc.mp hr with hold | rfl
        · exact sound.audit r hold
        · exact ⟨rfl, congrArg some hkey⟩
      · intro d hd
        exact .inl (Option.some.inj hd).symm
    · rw [heq]
      refine ⟨⟨sound.allowlist, sound.audit⟩, ?_, trivial⟩
      intro d hd
      obtain rfl := Option.some.inj hd
      rcases he with rfl | rfl
      · exact .inr (.inl rfl)
      · exact .inr (.inr rfl)
  | record atUnix fate => exact ⟨⟨sound.allowlist, sound.audit⟩, ht.decided, trivial⟩
  | respond => exact ⟨sound, ht.decided, rfl⟩
  | quiet idle gate requests decisions =>
    refine ⟨⟨gate ▸ sound.allowlist, gate ▸ sound.audit⟩, ?_, idle.answers⟩
    rw [idle.decision?]
    exact ht.decided

/-! ## Runs -/

/-- What a step of the program is. -/
theorem spikeStep_of_exit (h : (if st.exit.isNone then spikeStep cr signer pid st t act else none) =
    some (st', t')) : SpikeMove cr signer pid st t act st' t' :=
  spikeStep_move (Option.ite_none_right_eq_some.mp h).2

theorem SpikeThread.of_isIncoming (h : t.isIncoming = true) :
    (∃ request, t = .handler request .arrived) ∨ ∃ updateDebug, t = .notifier updateDebug .arrived := by
  unfold SpikeThread.isIncoming at h
  split at h
  · exact .inl ⟨_, rfl⟩
  · exact .inr ⟨_, rfl⟩
  · cases h

/-- What arrives has no part in anything yet. -/
theorem SpikeThread.fresh (h : t.isIncoming = true) :
    t.approvedRequest? = none ∧ t.recorded? = none ∧ t.isCounted = false ∧ t.Sound := by
  rcases SpikeThread.of_isIncoming h with ⟨request, rfl⟩ | ⟨updateDebug, rfl⟩
  · exact ⟨rfl, rfl, rfl, nofun, trivial⟩
  · exact ⟨rfl, rfl, rfl, nofun, trivial⟩

namespace Spike

variable {events : List (Pool.Event SpikeThread SpikeAct)} {p : Pool SpikeState SpikeThread}

theorem sound_opened (signer : SigningKey) : (Spike.opened signer).shared.Sound signer where
  allowlist := rfl
  audit := List.forall_mem_nil _

/-- **The run lemma.** -/
theorem sound_run (lawful : signer.Lawful cr)
    (run : (spike cr signer pid).run (opened signer) events = some p) :
    p.shared.Sound signer ∧ ∀ t ∈ p.threads, t.Sound := by
  refine Pool.forall_threads (T := fun _ t => t.Sound) (sound_opened signer) ?_ ?_ ?_ run
  · intro t ht
    rw [List.mem_singleton.mp ht]
    exact ⟨nofun, trivial⟩
  · intro s t hadmits _
    exact (SpikeThread.fresh (Bool.and_eq_true_iff.mp hadmits).2).2.2.2
  · intro s t act s' t' hstep hs ht
    obtain ⟨hs', ht'⟩ := (spikeStep_of_exit hstep).sound lawful hs ht
    exact ⟨hs', ht', fun _ h => h⟩

/-- **Books of the supervisor** balance in every run. -/
theorem balanced_run (lawful : signer.Lawful cr)
    (run : (spike cr signer pid).run (opened signer) events = some p) :
    p.shared.approvals = p.held (SpikeThread.approved cr) ∧
      p.shared.decisions = p.held SpikeThread.entry ∧
      p.shared.permissionRequests = p.held SpikeThread.counted := by
  have state : ∀ events p, (spike cr signer pid).run (opened signer) events = some p →
      (fun st : SpikeState => signer.pubkey ∈ st.gate.allowlistedSigners) p.shared := by
    intro events p hrun
    show signer.pubkey ∈ p.shared.gate.allowlistedSigners
    rw [(sound_run lawful hrun).1.allowlist]
    exact Finset.mem_singleton_self _
  refine ⟨?_, ?_, ?_⟩
  · refine Pool.balanced (S := fun st => signer.pubkey ∈ st.gate.allowlistedSigners) rfl state ?_ ?_ run
    · intro s t hadmits
      rw [SpikeThread.approved, (SpikeThread.fresh (Bool.and_eq_true_iff.mp hadmits).2).1]
    · intro s t act s' t' hs hstep
      exact (spikeStep_of_exit hstep).approvals lawful hs
  · refine Pool.balanced (S := fun st => signer.pubkey ∈ st.gate.allowlistedSigners) rfl state ?_ ?_ run
    · intro s t hadmits
      rw [SpikeThread.entry, (SpikeThread.fresh (Bool.and_eq_true_iff.mp hadmits).2).2.1]
    · intro s t act s' t' _ hstep
      exact (spikeStep_of_exit hstep).decisions
  · refine Pool.balanced (S := fun st => signer.pubkey ∈ st.gate.allowlistedSigners) rfl state ?_ ?_ run
    · intro s t hadmits
      rw [SpikeThread.counted, (SpikeThread.fresh (Bool.and_eq_true_iff.mp hadmits).2).2.2.1]
      rfl
    · intro s t act s' t' _ hstep
      exact (spikeStep_of_exit hstep).requests

/-- What the threads hold of a kind of things, listed. -/
theorem held_approved (cr : Crypto) (p : Pool SpikeState SpikeThread) :
    p.held (SpikeThread.approved cr) =
      ((p.threads.filterMap SpikeThread.approvedRequest?).map fun request => request.action.hash cr) := by
  unfold Pool.held
  induction p.threads with
  | nil => rfl
  | cons t rest ih =>
    rw [List.map_cons, List.sum_cons, ih, SpikeThread.approved]
    cases h : t.approvedRequest? with
    | none => rw [List.filterMap_cons_none h, zero_add]
    | some request =>
      rw [List.filterMap_cons_some h, List.map_cons, ← Multiset.cons_coe, Multiset.singleton_add]

theorem held_counted (p : Pool SpikeState SpikeThread) :
    p.held SpikeThread.counted = UInt32.ofNat (p.threads.countP SpikeThread.isCounted) := by
  unfold Pool.held
  induction p.threads with
  | nil => rfl
  | cons t rest ih =>
    rw [List.map_cons, List.sum_cons, ih, SpikeThread.counted, List.countP_cons, UInt32.ofNat_add,
      add_comm]
    cases t.isCounted with
    | true => rfl
    | false => rfl

/-- **The gate stands between the agent and its tools.** However the handlers of the permission
requests, the notifications and the connection task interleave: the approvals in the audit log are, one to
one, for the actions of the approved requests, all signed by the one signer; an answer selects an option
exactly when the gate approved this very request and it offers one, and it is the allow-once option
where there is one; a refusal is for an expired approval or a used nonce; and the counter has counted
the requests. -/
theorem run_gated (lawful : signer.Lawful cr)
    (run : (spike cr signer pid).run (opened signer) events = some p) :
    (p.shared.gate.audit.map AuditRecord.action).Perm
      ((p.threads.filterMap SpikeThread.approvedRequest?).map fun request => request.action.hash cr) ∧
    (∀ r ∈ p.shared.gate.audit, r.decision = .approved ∧ r.signer = some signer.pubkey) ∧
    (∀ request decision outcome, .handler request (.answered decision outcome) ∈ p.threads →
      ∀ id, outcome = .selected id ↔
        decision = .ok .approved ∧ ∃ o, request.option = some o ∧ o.optionId = id) ∧
    (∀ t ∈ p.threads, ∀ e, t.decision? = some (.error e) → e = .expired ∨ e = .nonceReused) ∧
    p.shared.permissionRequests = UInt32.ofNat (p.threads.countP SpikeThread.isCounted) := by
  obtain ⟨hstate, hthreads⟩ := sound_run lawful run
  obtain ⟨happrovals, -, hrequests⟩ := balanced_run lawful run
  refine ⟨?_, hstate.audit, ?_, ?_, hrequests.trans (held_counted p)⟩
  · rw [held_approved] at happrovals
    exact Multiset.coe_eq_coe.mp happrovals
  · intro request decision outcome hmem id
    have hsound := hthreads _ hmem
    have hanswer : outcome = request.outcome decision := hsound.answers
    rw [hanswer]
    rcases hsound.decided decision rfl with rfl | rfl | rfl
    · cases h : request.option with
      | none => simp [RequestPermissionRequest.outcome, h]
      | some o => simp [RequestPermissionRequest.outcome, h]
    · simp [RequestPermissionRequest.outcome]
    · simp [RequestPermissionRequest.outcome]
  · intro t ht e he
    rcases (hthreads t ht).decided _ he with h | h | h
    · cases h
    · exact .inl (Except.error.inj h)
    · exact .inr (Except.error.inj h)

/-! ## What is refused -/

/-- The readings of the passes through the gate. -/
def passes (events : List (Pool.Event SpikeThread SpikeAct)) : List Readings :=
  events.filterMap fun
    | .move _ (.decide readings) => some readings
    | _ => none

/-- The nonce of a pass. -/
def nonceOf (cr : Crypto) (pid : UInt32) (readings : Readings) : Bytes 32 :=
  randFreeNonce cr pid readings.nanos

/-- The gate has used the nonces of passes only, and has refused nothing when these differ. -/
structure Unrefused (cr : Crypto) (pid : UInt32) (events : List (Pool.Event SpikeThread SpikeAct))
    (p : Pool SpikeState SpikeThread) : Prop where
  usedNonces : ∀ nonce ∈ p.shared.gate.usedNonces, nonce ∈ (passes events).map (nonceOf cr pid)
  approved : ((passes events).map (nonceOf cr pid)).Nodup →
    (∀ r ∈ passes events, r.checkedAt ≤ r.signedAt + 120) →
    ∀ t ∈ p.threads, ∀ d, t.decision? = some d → d = .ok .approved

theorem passes_snoc (events : List (Pool.Event SpikeThread SpikeAct))
    (e : Pool.Event SpikeThread SpikeAct) : passes (events ++ [e]) = passes events ++ passes [e] :=
  List.filterMap_append

theorem mem_passes_snoc {events : List (Pool.Event SpikeThread SpikeAct)} {r : Readings}
    (e : Pool.Event SpikeThread SpikeAct) (h : r ∈ passes events) : r ∈ passes (events ++ [e]) := by
  rw [passes_snoc]
  exact List.mem_append_left _ h

/-- A step uses the nonce of its pass at most, and refuses only what is late or has a nonce of an earlier
pass. -/
theorem unrefused_step (lawful : signer.Lawful cr)
    (allow : signer.pubkey ∈ st.gate.allowlistedSigners) {i : Nat}
    (hmove : SpikeMove cr signer pid st t act st' t')
    (hused : ∀ nonce ∈ st.gate.usedNonces, nonce ∈ (passes events).map (nonceOf cr pid)) :
    (∀ nonce ∈ st'.gate.usedNonces,
      nonce ∈ (passes (events ++ [.move i act])).map (nonceOf cr pid)) ∧
    (((passes (events ++ [.move i act])).map (nonceOf cr pid)).Nodup →
      (∀ r ∈ passes (events ++ [.move i act]), r.checkedAt ≤ r.signedAt + 120) →
      (∀ d, t.decision? = some d → d = .ok .approved) →
      ∀ d, t'.decision? = some d → d = .ok .approved) := by
  have hgrown : ∀ nonce ∈ st.gate.usedNonces,
      nonce ∈ (passes (events ++ [.move i act])).map (nonceOf cr pid) := by
    intro nonce hnonce
    obtain ⟨r, hr, rfl⟩ := List.mem_map.mp (hused nonce hnonce)
    exact List.mem_map_of_mem (mem_passes_snoc _ hr)
  rcases hmove.decides with ⟨request, readings, rfl, rfl, hgate⟩ | ⟨hgate, hdecision⟩
  · have hlast : passes (events ++ [.move i (.decide readings)]) = passes events ++ [readings] :=
      passes_snoc _ _
    rw [hgate]
    rcases gatePass_cases pid lawful allow request.action readings with
      ⟨-, approval, hnonce, -, heq⟩ | ⟨hlate, e, -, heq⟩
    · rw [heq]
      refine ⟨?_, fun _ _ _ d hd => (Option.some.inj hd).symm⟩
      intro nonce hmem
      rcases Finset.mem_insert.mp hmem with rfl | hold
      · rw [hnonce, hlast]
        exact List.mem_map_of_mem (List.mem_append_right _ (List.mem_singleton_self _))
      · exact hgrown nonce hold
    · rw [heq]
      refine ⟨hgrown, ?_⟩
      intro hnodup htimely
      refine absurd ⟨htimely readings ?_, ?_⟩ hlate
      · rw [hlast]
        exact List.mem_append_right _ (List.mem_singleton_self _)
      · intro hreused
        rw [hlast, List.map_append] at hnodup
        exact List.disjoint_of_nodup_append hnodup (hused _ hreused) (List.mem_singleton_self _)
  · rw [hgate, hdecision]
    exact ⟨hgrown, fun _ _ hbefore => hbefore⟩

theorem unrefused_run (lawful : signer.Lawful cr)
    (run : (spike cr signer pid).run (opened signer) events = some p) :
    Unrefused cr pid events p := by
  refine (spike cr signer pid).history (P := Unrefused cr pid) ?_ ?_ run
  · refine ⟨nofun, ?_⟩
    intro _ _ t ht d hd
    rw [List.mem_singleton.mp ht] at hd
    cases hd
  · intro tr p e p' hrun ih hstep
    have hbefore : ((passes (tr ++ [e])).map (nonceOf cr pid)).Nodup →
        (∀ r ∈ passes (tr ++ [e]), r.checkedAt ≤ r.signedAt + 120) →
        ∀ t ∈ p.threads, ∀ d, t.decision? = some d → d = .ok .approved := by
      intro hnodup htimely
      rw [passes_snoc, List.map_append] at hnodup
      exact ih.approved hnodup.of_append_left fun r hr => htimely r (mem_passes_snoc e hr)
    rcases Pool.step_cases hstep with ⟨t, rfl, hadmits, rfl⟩ |
      ⟨i, act, front, t, back, s', t', rfl, hthreads, hmove, rfl⟩
    · constructor
      · intro nonce hnonce
        obtain ⟨r, hr, rfl⟩ := List.mem_map.mp (ih.usedNonces nonce hnonce)
        exact List.mem_map_of_mem (mem_passes_snoc _ hr)
      · intro hnodup htimely u hu d hd
        rcases mem_snoc.mp hu with hold | rfl
        · exact hbefore hnodup htimely u hold d hd
        · rcases SpikeThread.of_isIncoming (Bool.and_eq_true_iff.mp hadmits).2 with ⟨_, rfl⟩ | ⟨_, rfl⟩
          · cases hd
          · cases hd
    · -- the threads that look on are as before, so only the one that moves is new
      have allow : signer.pubkey ∈ p.shared.gate.allowlistedSigners := by
        rw [(sound_run lawful hrun).1.allowlist]
        exact Finset.mem_singleton_self _
      obtain ⟨hused, hmoved⟩ := unrefused_step (i := i) lawful allow (spikeStep_of_exit hmove) ih.usedNonces
      rw [hthreads] at hbefore
      refine ⟨hused, ?_⟩
      intro hnodup htimely u hu d hd
      rcases List.mem_append.mp hu with hfront | hrest
      · exact hbefore hnodup htimely u (List.mem_append_left _ hfront) d hd
      · rcases List.mem_cons.mp hrest with rfl | hback
        · exact hmoved hnodup htimely
            (hbefore hnodup htimely t (List.mem_append_right _ List.mem_cons_self)) d hd
        · exact hbefore hnodup htimely u (List.mem_append_right _ (List.mem_cons_of_mem _ hback)) d hd

theorem toLeBytes_mod {size m n : Nat} (h : toLeBytes size m = toLeBytes size n) :
    m % 256 ^ size = n % 256 ^ size := by
  induction size with
  | zero => rw [Nat.pow_zero, Nat.mod_one, Nat.mod_one]
  | succ size ih =>
    simp only [toLeBytes, List.range_succ, List.map_append, List.map_cons, List.map_nil] at h
    obtain ⟨hlow, htop⟩ := List.append_inj' h rfl
    have hbyte : m / 256 ^ size % 256 = n / 256 ^ size % 256 := by
      simpa only [UInt8.toNat_ofNat'] using congrArg UInt8.toNat (List.cons.inj htop).1
    rw [Nat.pow_succ, Nat.mod_mul, Nat.mod_mul, ih hlow, hbyte]

/-- What the nonce of a pass is the hash of. -/
def nonceBytes (pid : UInt32) (readings : Readings) : List UInt8 :=
  toLeBytes 16 readings.nanos.toNat ++ toLeBytes 4 pid.toNat

theorem nonceBytes_inj {r r' : Readings} (h : nonceBytes pid r = nonceBytes pid r') :
    r.nanos = r'.nanos := by
  have hlength : (toLeBytes 16 r.nanos.toNat).length = (toLeBytes 16 r'.nanos.toNat).length := by
    rw [toLeBytes, toLeBytes, List.length_map, List.length_map]
  have hmod := toLeBytes_mod (List.append_inj h hlength).1
  rw [Nat.mod_eq_of_lt (lt_of_lt_of_le r.nanos.isLt (by decide)),
    Nat.mod_eq_of_lt (lt_of_lt_of_le r'.nanos.isLt (by decide))] at hmod
  exact BitVec.eq_of_toNat_eq hmod

/-- **The human is never refused.** When the clock's nanoseconds differ from one pass through the gate to
the next, each pass takes no more than two minutes, and the digest does not make two of the nonces
collide, every request that is decided is approved, in every interleaving. -/
theorem run_approves (lawful : signer.Lawful cr)
    (run : (spike cr signer pid).run (opened signer) events = some p)
    (clock : ((passes events).map Readings.nanos).Nodup)
    (timely : ∀ r ∈ passes events, r.checkedAt ≤ r.signedAt + 120)
    (nocollide : ∀ r ∈ passes events, ∀ r' ∈ passes events,
      cr.sha256 (nonceBytes pid r) = cr.sha256 (nonceBytes pid r') →
        nonceBytes pid r = nonceBytes pid r') :
    ∀ t ∈ p.threads, ∀ d, t.decision? = some d → d = .ok .approved := by
  refine (unrefused_run lawful run).approved ?_ timely
  refine List.Nodup.map_on ?_ (List.Nodup.of_map _ clock)
  intro r hr r' hr' hnonce
  exact List.inj_on_of_nodup_map clock hr hr' (nonceBytes_inj (nocollide r hr r' hr' hnonce))

/-! ## The session files -/

theorem held_entry (p : Pool SpikeState SpikeThread) :
    p.held SpikeThread.entry =
      ((p.threads.filterMap SpikeThread.recorded?).map decisionDetail : List String) := by
  unfold Pool.held
  induction p.threads with
  | nil => rfl
  | cons t rest ih =>
    rw [List.map_cons, List.sum_cons, ih, SpikeThread.entry]
    cases h : t.recorded? with
    | none => rw [List.filterMap_cons_none h, zero_add]
    | some d =>
      rw [List.filterMap_cons_some h, List.map_cons, ← Multiset.cons_coe, Multiset.singleton_add]

/-- What is recorded of an approval. -/
def approvedDetail : String := "APPROVED (signed, single-use)"

theorem decisionDetail_eq_approved (d : Except GateError Decision) :
    decisionDetail d = approvedDetail ↔ d = .ok .approved := by
  constructor
  · intro h
    cases d with
    | ok d =>
      cases d with
      | approved => rfl
      | denied => exact absurd h (by decide)
    | error e => cases e <;> exact absurd h (by decide)
  · rintro rfl
    rfl

/-- The approvals among the decisions of sound threads are the approved requests. -/
theorem count_approved {threads : List SpikeThread} (h : ∀ t ∈ threads, t.Sound) :
    ((threads.filterMap SpikeThread.decision?).map decisionDetail).count approvedDetail =
      (threads.filterMap SpikeThread.approvedRequest?).length := by
  rw [List.count, List.countP_map, List.countP_filterMap, List.length_filterMap_eq_countP]
  refine List.countP_congr ?_
  intro t ht
  cases t with
  | handler request pc =>
    cases hd : pc.decision? with
    | none => simp [SpikeThread.decision?, SpikeThread.approvedRequest?, hd]
    | some d =>
      rcases (h _ ht).decided d hd with rfl | rfl | rfl
      · simp [SpikeThread.decision?, SpikeThread.approvedRequest?, hd, decisionDetail_eq_approved]
      · simp [SpikeThread.decision?, SpikeThread.approvedRequest?, hd, decisionDetail_eq_approved]
      · simp [SpikeThread.decision?, SpikeThread.approvedRequest?, hd, decisionDetail_eq_approved]
  | _ => rfl

end Spike

section

variable {F : Type} [DecidableEq F] {serde : Serde} {resolve : String → F} {store : JsonlSessionStore}

/-- The events of all sessions are the events of the calls. -/
theorem sum_appended {sessions : Finset String} {calls : List Append}
    (h : ∀ c ∈ calls, c.session ∈ sessions) :
    ∑ s ∈ sessions, (JsonlSessionStore.appended s calls : Multiset SessionEvent) =
      (calls.map Append.event : List SessionEvent) := by
  induction calls with
  | nil => simp [JsonlSessionStore.appended]
  | cons c calls ih =>
    obtain ⟨hc, hrest⟩ := List.forall_mem_cons.mp h
    have hsplit : ∀ s, (JsonlSessionStore.appended s (c :: calls) : Multiset SessionEvent) =
        (if c.session = s then {c.event} else 0) + JsonlSessionStore.appended s calls := by
      intro s
      by_cases hs : c.session = s
      · simp [JsonlSessionStore.appended, hs]
      · simp [JsonlSessionStore.appended, hs]
    simp only [hsplit, Finset.sum_add_distrib, ih hrest, Finset.sum_ite_eq, hc, if_true,
      List.map_cons]
    rfl

/-- **The session files tell what was decided.** After any run, over session files of whole lines and with
whole appends to sessions whose names hold no separator, every session loads: as what its file told
before the run, and behind it the log of the run. The decisions in these logs, whichever session each was
put in, are those that handlers have recorded, and an answered handler has. When no handler stands between
its decision and the record, the logs hold as many approvals as the gate's audit log. -/
theorem Spike.run_logged (lawful : signer.Lawful cr)
    {events : List (Pool.Event SpikeThread SpikeAct)} {p : Pool SpikeState SpikeThread}
    (run : (spike cr signer pid).run (Spike.opened signer) events = some p) (hlaw : serde.Lawful)
    (hfiles : DistinctFiles resolve store.root) {start : Disk F} {old : String → List SessionEvent}
    (before : ∀ s, '/' ∉ s.toList →
      JsonlSessionStore.Complete serde (old s) (start.content (resolve (store.pathFor s))))
    (whole : ∀ x ∈ (store.service serde resolve).exchanges start p.shared.appends,
      '/' ∉ x.1.session.toList ∧ x.2.isOk = true) :
    ∃ log : String → List SessionEvent,
      (∀ s, '/' ∉ s.toList →
        store.load serde resolve ((store.service serde resolve).after start p.shared.appends) s =
          .ok (old s ++ log s)) ∧
      ((∑ s ∈ (p.shared.appends.map Append.session).toFinset, (log s : Multiset SessionEvent)).filter
          fun event => event.kind = .gateDecision).map SessionEvent.detail =
        ((p.threads.filterMap SpikeThread.recorded?).map decisionDetail : List String) ∧
      (∀ request decision outcome, .handler request (.answered decision outcome) ∈ p.threads →
        decision ∈ p.threads.filterMap SpikeThread.recorded?) ∧
      ((∀ t ∈ p.threads, t.recorded? = t.decision?) →
        ((p.threads.filterMap SpikeThread.recorded?).map decisionDetail).count approvedDetail =
          p.shared.gate.audit.length) := by
  obtain ⟨happrovals, hdecisions, -⟩ := Spike.balanced_run lawful run
  obtain ⟨-, hthreads⟩ := Spike.sound_run lawful run
  refine ⟨fun s => JsonlSessionStore.appended s p.shared.appends, ?_, ?_, ?_, ?_⟩
  · intro s hs
    exact (JsonlSessionStore.complete_after hfiles hs (before s hs) whole).load hlaw
  · rw [sum_appended fun c hc => List.mem_toFinset.mpr (List.mem_map_of_mem hc)]
    rw [Spike.held_entry] at hdecisions
    exact hdecisions
  · intro request decision outcome hmem
    exact List.mem_filterMap.mpr ⟨_, hmem, rfl⟩
  · intro hrecorded
    rw [List.filterMap_congr hrecorded, Spike.count_approved hthreads]
    rw [Spike.held_approved] at happrovals
    have hlength := congrArg Multiset.card happrovals
    simpa only [SpikeState.approvals, Multiset.coe_card, List.length_map] using hlength.symm

end

end

/-! ## A sample -/

namespace Spike.Sample

/-- A digest of the first byte, and a key that verifies everything. -/
def crypto : Crypto where
  sha256 bytes := .fill 32 (bytes.headD 0)
  isKey _ := true
  verify _ _ _ := true

def signer : SigningKey := ⟨.fill 32 7, fun _ => .fill 64 0⟩

theorem lawful : signer.Lawful crypto where
  isKey := rfl
  verifies _ := rfl

/-- The same tool call, asked for twice. -/
def request : RequestPermissionRequest := ⟨"\x7b\x7d", "ls", [⟨"no", "RejectOnce"⟩, ⟨"yes", "AllowOnce"⟩]⟩

/-- The second handler overtakes the first, and the session is named while they run. -/
def events : List (Pool.Event SpikeThread SpikeAct) :=
  [.arrive (.handler request .arrived), .arrive (.handler request .arrived), .move 1 .count,
    .move 2 .count, .move 2 .clone, .move 1 .clone, .move 2 (.append 1 .completes),
    .move 2 (.decide ⟨1, 5, 6, 6⟩), .move 0 (.initialized true), .move 1 (.append 1 .completes),
    .move 1 (.decide ⟨2, 5, 7, 7⟩), .move 2 .clone, .move 0 (.sessionOpened (some "s1")),
    .move 0 .name, .move 1 .clone, .move 2 (.append 8 .completes), .move 1 (.append 8 .completes),
    .move 2 .respond, .move 1 .respond]

/-- Where they lead. -/
theorem run_some : ∃ p, (spike crypto signer 9).run (opened signer) events = some p ∧
    p.shared.gate.audit.length = 2 ∧
    p.threads.filterMap SpikeThread.decision? = [.ok .approved, .ok .approved] := by
  refine ⟨_, rfl, rfl, rfl⟩

/-- One request, from its arrival to its answer. -/
def single : List (Pool.Event SpikeThread SpikeAct) :=
  [.arrive (.handler request .arrived), .move 1 .count, .move 1 .clone, .move 1 (.append 1 .completes),
    .move 1 (.decide ⟨1, 5, 6, 6⟩), .move 1 .clone, .move 1 (.append 8 .completes), .move 1 .respond]

def asked : SessionEvent := ⟨1, .toolCallRequested, "session/request_permission RAW: \x7b\x7d"⟩

def approved : SessionEvent := ⟨8, .gateDecision, approvedDetail⟩

theorem single_some : ∃ p, (spike crypto signer 9).run (opened signer) single = some p ∧
    p.shared.appends = [⟨"acp-spike", asked, .completes⟩, ⟨"acp-spike", approved, .completes⟩] ∧
    (∀ t ∈ p.threads, t.recorded? = t.decision?) ∧ p.shared.gate.audit.length = 1 := by
  refine ⟨_, rfl, rfl, ?_, rfl⟩
  intro t ht
  rcases List.mem_cons.mp ht with rfl | ht
  · rfl
  · rw [List.mem_singleton.mp ht]
    rfl

def askedText : String :=
  "\x7b\"at_unix\":1,\"kind\":\"ToolCallRequested\",\"detail\":\"session/request_permission RAW: \x7b\x7d\"\x7d"

def approvedText : String :=
  "\x7b\"at_unix\":8,\"kind\":\"GateDecision\",\"detail\":\"APPROVED (signed, single-use)\"\x7d"

/-- `serde_json`, as far as the two events go. -/
def serde : Serde where
  toString event :=
    if event = asked then .ok askedText else if event = approved then .ok approvedText else .error ""
  fromStr text :=
    if text = askedText then .ok asked else if text = approvedText then .ok approved else .error ""

theorem serde_toString {event : SessionEvent} {text : String} (h : serde.toString event = .ok text) :
    (event = asked ∧ text = askedText) ∨ (event = approved ∧ text = approvedText) := by
  unfold serde at h
  dsimp only at h
  split at h
  · cases h
    exact .inl ⟨‹_›, rfl⟩
  · split at h
    · cases h
      exact .inr ⟨‹_›, rfl⟩
    · cases h

theorem serde_lawful : serde.Lawful where
  inverts h := by
    rcases serde_toString h with ⟨rfl, rfl⟩ | ⟨rfl, rfl⟩ <;> decide +kernel
  notBlank h := by
    rcases serde_toString h with ⟨-, rfl⟩ | ⟨-, rfl⟩ <;> decide +kernel
  noNewline h := by
    rcases serde_toString h with ⟨-, rfl⟩ | ⟨-, rfl⟩ <;> decide +kernel
  noReturn h := by
    rcases serde_toString h with ⟨-, rfl⟩ | ⟨-, rfl⟩ <;> decide +kernel

/-- What an earlier run has left in the first session. -/
def old (s : String) : List SessionEvent := if s = "acp-spike" then [approved] else []

/-- A disk with the file of that session. -/
def disk : Disk String := fun f =>
  if f = (⟨"audit"⟩ : JsonlSessionStore).pathFor "acp-spike" then some (utf8 approvedText ++ [newline])
  else none

theorem complete_disk (s : String) (hs : '/' ∉ s.toList) :
    JsonlSessionStore.Complete serde (old s)
      (disk.content (id ((⟨"audit"⟩ : JsonlSessionStore).pathFor s))) := by
  by_cases hname : s = "acp-spike"
  · subst hname
    have hline : JsonlSessionStore.Complete serde ([] ++ [approved])
        ([] ++ (utf8 approvedText ++ [newline])) := .snoc .nil (by decide +kernel)
    rw [old, if_pos rfl, Disk.content, disk, id, if_pos rfl]
    exact hline
  · have hne := JsonlSessionStore.resolve_pathFor_ne (JsonlSessionStore.distinctFiles_id "audit") hs
      (by decide) hname
    rw [old, if_neg hname]
    exact JsonlSessionStore.complete_of_none (if_neg hne)

end Spike.Sample

theorem Spike.run_gated_sample : ∃ p,
    (spike Sample.crypto Sample.signer 9).run (opened Sample.signer) Sample.events = some p ∧
      p.shared.gate.audit.length = 2 ∧
      (p.shared.gate.audit.map AuditRecord.action).Perm
        ((p.threads.filterMap SpikeThread.approvedRequest?).map fun r => r.action.hash Sample.crypto) := by
  obtain ⟨p, hrun, haudit, -⟩ := Sample.run_some
  exact ⟨p, hrun, haudit, (run_gated Sample.lawful hrun).1⟩

theorem Spike.run_approves_sample : ∃ p,
    (spike Sample.crypto Sample.signer 9).run (opened Sample.signer) Sample.events = some p ∧
      ∀ t ∈ p.threads, ∀ d, t.decision? = some d → d = .ok .approved := by
  obtain ⟨p, hrun, -⟩ := Sample.run_some
  have hpasses : passes Sample.events = [⟨1, 5, 6, 6⟩, ⟨2, 5, 7, 7⟩] := rfl
  refine ⟨p, hrun, run_approves Sample.lawful hrun ?_ ?_ ?_⟩
  · rw [hpasses]
    decide
  · rw [hpasses]
    decide
  · rw [hpasses]
    decide +kernel

theorem Spike.run_logged_sample : ∃ p,
    (spike Sample.crypto Sample.signer 9).run (opened Sample.signer) Sample.single = some p ∧
      ∃ log : String → List SessionEvent,
        (∀ s, '/' ∉ s.toList → (⟨"audit"⟩ : JsonlSessionStore).load Sample.serde id
          (((⟨"audit"⟩ : JsonlSessionStore).service Sample.serde id).after Sample.disk
            p.shared.appends) s = .ok (Sample.old s ++ log s)) ∧
        ((p.threads.filterMap SpikeThread.recorded?).map decisionDetail).count approvedDetail = 1 := by
  obtain ⟨p, hrun, happends, hrecorded, haudit⟩ := Sample.single_some
  have hwhole : ∀ x ∈ ((⟨"audit"⟩ : JsonlSessionStore).service Sample.serde id).exchanges
      Sample.disk p.shared.appends, '/' ∉ x.1.session.toList ∧ x.2.isOk = true := by
    rw [happends]
    decide +kernel
  obtain ⟨log, hload, -, -, hcount⟩ := Spike.run_logged Sample.lawful hrun Sample.serde_lawful
    (JsonlSessionStore.distinctFiles_id "audit") Sample.complete_disk hwhole
  exact ⟨p, hrun, log, hload, (hcount hrecorded).trans haudit⟩

end GooseClaw
