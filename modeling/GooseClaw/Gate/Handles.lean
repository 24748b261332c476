import GooseClaw.Gate.Audit

/-!
# The lifecycle of a handle

`submit` mints a handle and the gate keeps only the action hash, so handles of one action share an
entry of the pending set. A `Desk` is a gate together with the handles its callers hold: `decide`
borrows a handle and may be called on it again, `deny` takes it and it is gone.

`Desk.Lawful` is what a caller may expect of one step from the handle alone: a live handle can be
decided, an approved one cannot, and no handle writes two records. `Desk.Clear` is the condition
under which the gate gives it, read off the calls so far: whether the latest of the submissions,
approvals and denials of the handle's action is a submission (`pending_iff_latestTouch`). The two
agree on every run (`Desk.lawful_iff_clear`).
-/

namespace GooseClaw

open Found

/-! ## The latest touch of an action -/

/-- What a call did to the pending entry of an action. -/
inductive Touch
  | submitted
  | settled
  deriving DecidableEq

/-- How an exchange touched the action hash, if it did: an accepted approval and every denial settle
it, a submission whose approval is refused leaves it submitted. -/
def touch? (cr : Crypto) (h : ActionHash) : GateCall × GateReply → Option Touch
  | (.submit a, _) => if a.hash cr = h then some .submitted else none
  | (.decide p _ _ _, .decided (.ok _)) => if p.hash = h then some .settled else none
  | (.deny p _, _) => if p.hash = h then some .settled else none
  | (.submitAndDecide a _ _ _, .decided (.ok _)) => if a.hash cr = h then some .settled else none
  | (.submitAndDecide a _ _ _, _) => if a.hash cr = h then some .submitted else none
  | _ => none

/-- The latest submission, approval or denial of the action hash. -/
def latestTouch (cr : Crypto) (log : List (GateCall × GateReply)) (h : ActionHash) :
    Option Touch :=
  (log.filterMap (touch? cr h)).getLast?

theorem latestTouch_snoc (cr : Crypto) (log : List (GateCall × GateReply))
    (ex : GateCall × GateReply) (h : ActionHash) :
    latestTouch cr (log ++ [ex]) h = (touch? cr h ex).or (latestTouch cr log h) := by
  unfold latestTouch
  rw [filterMap_snoc, List.getLast?_append]
  cases touch? cr h ex <;> rfl

/-- What one call leaves pending: a touched action is pending exactly when it was submitted, an
untouched one as before. -/
theorem Rule9Gate.pending_handle (cr : Crypto) (g : Rule9Gate) (c : GateCall) (h : ActionHash) :
    h ∈ ((service cr).handle g c).2.pending ↔
      (touch? cr h (c, ((service cr).handle g c).1)).elim (h ∈ g.pending) (· = .submitted) := by
  cases c with
  | submit a =>
    by_cases heq : a.hash cr = h
    · simp [service, touch?, heq]
    · simp [service, touch?, heq, Ne.symm heq]
  | deny p auditNow =>
    by_cases heq : p.hash = h
    · simp [service, touch?, heq]
    · simp [service, touch?, heq, Ne.symm heq]
  | decide p ap now auditNow =>
    rcases decide_cases cr g p ap now auditNow with ⟨e, hd, -⟩ | ⟨-, hd⟩
    · simp [service, touch?, hd]
    · by_cases heq : p.hash = h
      · simp [service, touch?, hd, heq]
      · simp [service, touch?, hd, heq, Ne.symm heq]
  | submitAndDecide a ap now auditNow =>
    rcases submitAndDecide_cases cr g a ap now auditNow with ⟨e, hd⟩ | ⟨-, hd⟩
    · by_cases heq : a.hash cr = h
      · simp [service, touch?, hd, heq]
      · simp [service, touch?, hd, heq, Ne.symm heq]
    · by_cases heq : a.hash cr = h
      · simp [service, touch?, hd, heq]
      · simp [service, touch?, hd, heq, Ne.symm heq]

/-! ## The desk -/

/-- A handle in its caller's hands, with the audit records the calls on it wrote. -/
structure Handle where
  pending : PendingAction
  approved : Bool
  consumed : Bool
  records : List AuditRecord

/-- A handle as `submit` returns it. -/
def Handle.minted (p : PendingAction) : Handle :=
  { pending := p, approved := false, consumed := false, records := [] }

/-- A handle is live from its submission to its own approval or denial. -/
def Handle.Live (h : Handle) : Prop := h.approved = false ∧ h.consumed = false

/-- A gate, the handles it minted in order, and the exchanges so far. -/
structure Desk where
  gate : Rule9Gate
  handles : List Handle
  log : List (GateCall × GateReply)

/-- What callers do at the desk; handles are named by the order they were minted in. -/
inductive DeskEvent
  | submit (action : ActionRequest)
  | decide (handle : Nat) (approval : Approval) (now auditNow : UInt64)
  | deny (handle : Nat) (auditNow : UInt64)
  | submitAndDecide (action : ActionRequest) (approval : Approval) (now auditNow : UInt64)

namespace Desk

/-- A new gate, and nobody holds a handle. -/
def opened (signers : List (Bytes 32)) : Desk := ⟨Rule9Gate.new signers, [], []⟩

variable (cr : Crypto)

/-- The gate serves one call. -/
def serve (s : Desk) (c : GateCall) : Desk :=
  { s with
    gate := ((Rule9Gate.service cr).handle s.gate c).2
    log := s.log ++ [(c, ((Rule9Gate.service cr).handle s.gate c).1)] }

/-- The audit records a call on the gate writes. -/
def newRecords (s : Desk) (c : GateCall) : List AuditRecord :=
  (s.serve cr c).gate.audit.drop s.gate.audit.length

/-- A call on handle `i`, which becomes `h`. -/
def serveOn (s : Desk) (i : Nat) (h : Handle) (c : GateCall) : Desk :=
  { s.serve cr c with
    handles := s.handles.set i { h with records := h.records ++ s.newRecords cr c } }

/-- What `decide` on a handle answers. -/
def answer (s : Desk) (h : Handle) (ap : Approval) (now auditNow : UInt64) :
    Except GateError Decision :=
  (s.gate.decide cr h.pending ap now auditNow).1

/-- One event. A handle that was never minted or that `deny` took enables nothing. -/
def step (s : Desk) : DeskEvent → Option Desk
  | .submit a =>
    some { s.serve cr (.submit a) with
      handles := s.handles ++ [Handle.minted (s.gate.submit cr a).1] }
  | .decide i ap now auditNow => do
    let h ← s.handles[i]?
    if h.consumed then none
    else some (s.serveOn cr i
      { h with approved := h.approved || (s.answer cr h ap now auditNow).isOk }
      (.decide h.pending ap now auditNow))
  | .deny i auditNow => do
    let h ← s.handles[i]?
    if h.consumed then none
    else some (s.serveOn cr i { h with consumed := true } (.deny h.pending auditNow))
  | .submitAndDecide a ap now auditNow => some (s.serve cr (.submitAndDecide a ap now auditNow))

def machine : Machine Desk DeskEvent := ⟨step cr⟩

/-- **The inversion of a step.** -/
theorem step_cases {s s' : Desk} {e : DeskEvent} (h : s.step cr e = some s') :
    (∃ a, e = .submit a ∧ s' = { s.serve cr (.submit a) with
      handles := s.handles ++ [Handle.minted (s.gate.submit cr a).1] }) ∨
    (∃ i ap now auditNow hd, e = .decide i ap now auditNow ∧ s.handles[i]? = some hd ∧
      hd.consumed = false ∧ s' = s.serveOn cr i
        { hd with approved := hd.approved || (s.answer cr hd ap now auditNow).isOk }
        (.decide hd.pending ap now auditNow)) ∨
    (∃ i auditNow hd, e = .deny i auditNow ∧ s.handles[i]? = some hd ∧ hd.consumed = false ∧
      s' = s.serveOn cr i { hd with consumed := true } (.deny hd.pending auditNow)) ∨
    (∃ a ap now auditNow, e = .submitAndDecide a ap now auditNow ∧
      s' = s.serve cr (.submitAndDecide a ap now auditNow)) := by
  cases e with
  | submit a => exact .inl ⟨a, rfl, (Option.some.inj h).symm⟩
  | submitAndDecide a ap now auditNow =>
    exact .inr (.inr (.inr ⟨a, ap, now, auditNow, rfl, (Option.some.inj h).symm⟩))
  | decide i ap now auditNow =>
    obtain ⟨hd, hget, hstep⟩ := Option.bind_eq_some_iff.mp h
    by_cases hc : hd.consumed = true
    · rw [if_pos hc] at hstep
      cases hstep
    · rw [if_neg hc] at hstep
      rw [Bool.not_eq_true] at hc
      exact .inr (.inl ⟨i, ap, now, auditNow, hd, rfl, hget, hc, (Option.some.inj hstep).symm⟩)
  | deny i auditNow =>
    obtain ⟨hd, hget, hstep⟩ := Option.bind_eq_some_iff.mp h
    by_cases hc : hd.consumed = true
    · rw [if_pos hc] at hstep
      cases hstep
    · rw [if_neg hc] at hstep
      rw [Bool.not_eq_true] at hc
      exact .inr (.inr (.inl ⟨i, auditNow, hd, rfl, hget, hc, (Option.some.inj hstep).symm⟩))

/-- Every event is one call on the gate. -/
theorem step_serves {s s' : Desk} {e : DeskEvent} (h : s.step cr e = some s') :
    ∃ c, s'.gate = (s.serve cr c).gate ∧ s'.log = (s.serve cr c).log := by
  rcases step_cases cr h with ⟨a, -, rfl⟩ | ⟨i, ap, now, at', hd, -, -, -, rfl⟩ |
    ⟨i, at', hd, -, -, -, rfl⟩ | ⟨a, ap, now, at', -, rfl⟩
  · exact ⟨_, rfl, rfl⟩
  · exact ⟨_, rfl, rfl⟩
  · exact ⟨_, rfl, rfl⟩
  · exact ⟨_, rfl, rfl⟩

/-- In every state of a run, an action is pending exactly when the latest of its submissions,
approvals and denials is a submission. -/
theorem pending_iff_latestTouch {signers : List (Bytes 32)} {tr : List DeskEvent} {s : Desk}
    (hrun : (machine cr).run (opened signers) tr = some s) (h : ActionHash) :
    h ∈ s.gate.pending ↔ latestTouch cr s.log h = some .submitted := by
  refine (machine cr).history
    (P := fun _ s => h ∈ s.gate.pending ↔ latestTouch cr s.log h = some .submitted) ?_ ?_ hrun
  · simp [opened, Rule9Gate.new, latestTouch]
  · intro tr s e s' _ ih hstep
    obtain ⟨c, hgate, hlog⟩ := step_serves cr hstep
    rw [hgate, hlog, serve, latestTouch_snoc, Rule9Gate.pending_handle]
    cases touch? cr h (c, ((Rule9Gate.service cr).handle s.gate c).1) with
    | none => exact ih
    | some t => simp

/-! ## What handles write -/

/-- The records a call writes are read off its exchange. -/
theorem newRecords_eq (s : Desk) (c : GateCall) :
    s.newRecords cr c =
      (record? cr (c, ((Rule9Gate.service cr).handle s.gate c).1)).toList := by
  unfold newRecords serve
  rw [Rule9Gate.audit_handle, List.drop_left]

/-- `decide` writes one record when it answers `Ok` and none otherwise. -/
theorem length_newRecords_decide (s : Desk) (h : Handle) (ap : Approval) (now auditNow : UInt64) :
    (s.newRecords cr (.decide h.pending ap now auditNow)).length =
      if (s.answer cr h ap now auditNow).isOk then 1 else 0 := by
  rw [newRecords_eq, answer]
  rcases Rule9Gate.decide_cases cr s.gate h.pending ap now auditNow with ⟨e, hd, -⟩ | ⟨-, hd⟩
  · simp [Rule9Gate.service, record?, acceptance?, hd, Except.isOk, Except.toBool]
  · simp [Rule9Gate.service, record?, acceptance?, hd, Except.isOk, Except.toBool]

/-- `deny` writes one record, whatever is pending. -/
theorem length_newRecords_deny (s : Desk) (h : Handle) (auditNow : UInt64) :
    (s.newRecords cr (.deny h.pending auditNow)).length = 1 := by
  rw [newRecords_eq]
  rfl

/-- A live handle has written nothing, an approved one has written something. -/
structure Tally (h : Handle) : Prop where
  live : h.Live → h.records.length = 0
  approved : h.approved = true → 1 ≤ h.records.length

/-- The handles after a step: one of before, a new one, one that `decide` was called on, or one that
`deny` took. -/
theorem mem_handles_step {s s' : Desk} {e : DeskEvent} (h : s.step cr e = some s') {hd' : Handle}
    (hmem : hd' ∈ s'.handles) :
    hd' ∈ s.handles ∨ hd'.records = [] ∧ hd'.approved = false ∨
    (∃ i ap now auditNow hd, e = .decide i ap now auditNow ∧ s.handles[i]? = some hd ∧
      hd.consumed = false ∧ hd'.consumed = false ∧
      hd'.approved = (hd.approved || (s.answer cr hd ap now auditNow).isOk) ∧
      hd'.records.length =
        hd.records.length + if (s.answer cr hd ap now auditNow).isOk then 1 else 0) ∨
    (∃ i auditNow hd, e = .deny i auditNow ∧ s.handles[i]? = some hd ∧ hd.consumed = false ∧
      hd'.consumed = true ∧ hd'.approved = hd.approved ∧
      hd'.records.length = hd.records.length + 1) := by
  rcases step_cases cr h with ⟨a, -, rfl⟩ | ⟨i, ap, now, at', hd, rfl, hget, hc, rfl⟩ |
    ⟨i, at', hd, rfl, hget, hc, rfl⟩ | ⟨a, ap, now, at', -, rfl⟩
  · rcases mem_snoc.mp hmem with hold | rfl
    · exact .inl hold
    · exact .inr (.inl ⟨rfl, rfl⟩)
  · rcases List.mem_or_eq_of_mem_set hmem with hold | rfl
    · exact .inl hold
    · refine .inr (.inr (.inl ⟨i, ap, now, at', hd, rfl, hget, hc, hc, rfl, ?_⟩))
      rw [List.length_append, length_newRecords_decide]
  · rcases List.mem_or_eq_of_mem_set hmem with hold | rfl
    · exact .inl hold
    · refine .inr (.inr (.inr ⟨i, at', hd, rfl, hget, hc, rfl, rfl, ?_⟩))
      rw [List.length_append, length_newRecords_deny]
  · exact .inl hmem

/-- One step keeps the tally of every handle. -/
theorem tally_step {s s' : Desk} {e : DeskEvent} (tally : ∀ h ∈ s.handles, Tally h)
    (h : s.step cr e = some s') : ∀ h ∈ s'.handles, Tally h := by
  intro hd' hmem
  rcases mem_handles_step cr h hmem with hold | ⟨hrec, happ⟩ |
    ⟨i, ap, now, at', hd, -, hget, hc, hc', happ, hlen⟩ | ⟨i, at', hd, -, hget, hc, hc', happ, hlen⟩
  · exact tally hd' hold
  · exact ⟨fun _ => by rw [hrec, List.length_nil], fun h => by simp [happ] at h⟩
  · have t := tally hd (List.mem_of_getElem? hget)
    cases hok : (s.answer cr hd ap now at').isOk with
    | true =>
      rw [hok, Bool.or_true] at happ
      rw [hok, if_pos rfl] at hlen
      exact ⟨fun live => by simp [live.1] at happ, fun _ => by omega⟩
    | false =>
      rw [hok, Bool.or_false] at happ
      rw [hok, if_neg Bool.false_ne_true, Nat.add_zero] at hlen
      exact ⟨fun live => hlen.trans (t.live ⟨happ ▸ live.1, hc⟩),
        fun h => hlen ▸ t.approved (happ ▸ h)⟩
  · exact ⟨fun live => by simp [live.2] at hc', fun _ => by omega⟩

theorem tally_run {signers : List (Bytes 32)} {tr : List DeskEvent} {s : Desk}
    (hrun : (machine cr).run (opened signers) tr = some s) : ∀ h ∈ s.handles, Tally h :=
  (machine cr).history (P := fun _ s => ∀ h ∈ s.handles, Tally h)
    (by simp [opened]) (fun _ _ _ _ _ tally hstep => tally_step cr tally hstep) hrun

/-! ## What a caller may expect -/

/-- What a handle promises its caller at one step. Handles that `deny` took are in nobody's hands. -/
structure Lawful (s : Desk) (e : DeskEvent) : Prop where
  liveDecides : ∀ i ap now auditNow h, e = .decide i ap now auditNow → s.handles[i]? = some h →
    h.Live → s.answer cr h ap now auditNow ≠ .error .actionNotPending
  approvedRefuses : ∀ i ap now auditNow h, e = .decide i ap now auditNow →
    s.handles[i]? = some h → h.approved = true → h.consumed = false →
    s.answer cr h ap now auditNow = .error .actionNotPending
  oneRecord : ∀ s', s.step cr e = some s' → ∀ h ∈ s'.handles, h.records.length ≤ 1

/-- When the gate keeps the promise: `decide` finds its action last submitted if the handle is live
and last settled if it is approved, and `deny` is called on no approved handle. -/
structure Clear (s : Desk) (e : DeskEvent) : Prop where
  live : ∀ i ap now auditNow h, e = .decide i ap now auditNow → s.handles[i]? = some h →
    h.Live → latestTouch cr s.log h.pending.hash = some .submitted
  approved : ∀ i ap now auditNow h, e = .decide i ap now auditNow → s.handles[i]? = some h →
    h.approved = true → h.consumed = false →
    latestTouch cr s.log h.pending.hash ≠ some .submitted
  deny : ∀ i auditNow h, e = .deny i auditNow → s.handles[i]? = some h →
    h.consumed = false → h.approved = false

/-- `decide` answers `ActionNotPending` exactly when the action was not last submitted. -/
theorem answer_actionNotPending_iff {signers : List (Bytes 32)} {tr : List DeskEvent} {s : Desk}
    (hrun : (machine cr).run (opened signers) tr = some s) (h : Handle) (ap : Approval)
    (now auditNow : UInt64) :
    s.answer cr h ap now auditNow = .error .actionNotPending ↔
      latestTouch cr s.log h.pending.hash ≠ some .submitted := by
  rw [answer, Rule9Gate.decide_actionNotPending_iff, pending_iff_latestTouch cr hrun]

/-- A clear step is lawful, when no handle has written two records before it. -/
theorem Clear.lawful {signers : List (Bytes 32)} {tr : List DeskEvent} {s : Desk}
    {e : DeskEvent} (hrun : (machine cr).run (opened signers) tr = some s)
    (one : ∀ h ∈ s.handles, h.records.length ≤ 1) (clear : s.Clear cr e) : s.Lawful cr e where
  liveDecides i ap now auditNow h he hget live hans :=
    (answer_actionNotPending_iff cr hrun h ap now auditNow).mp hans
      (clear.live i ap now auditNow h he hget live)
  approvedRefuses i ap now auditNow h he hget happ hc :=
    (answer_actionNotPending_iff cr hrun h ap now auditNow).mpr
      (clear.approved i ap now auditNow h he hget happ hc)
  oneRecord s' hstep hd' hmem := by
    rcases mem_handles_step cr hstep hmem with hold | ⟨hrec, -⟩ |
      ⟨i, ap, now, at', hd, he, hget, hc, -, -, hlen⟩ | ⟨i, at', hd, he, hget, hc, -, -, hlen⟩
    · exact one hd' hold
    · rw [hrec]
      exact Nat.zero_le 1
    · have t := tally_run cr hrun hd (List.mem_of_getElem? hget)
      have hone := one hd (List.mem_of_getElem? hget)
      cases happ : hd.approved with
      | false =>
        rw [hlen, t.live ⟨happ, hc⟩]
        split <;> omega
      | true =>
        -- an approved handle is refused, so it writes nothing more
        have hrefused := (answer_actionNotPending_iff cr hrun hd ap now at').mpr
          (clear.approved i ap now at' hd he hget happ hc)
        rw [hrefused] at hlen
        rw [hlen]
        exact hone
    · have t := tally_run cr hrun hd (List.mem_of_getElem? hget)
      rw [hlen, t.live ⟨clear.deny i at' hd he hget hc, hc⟩]

/-- A lawful step is clear: a denial of an approved handle would be its second record. -/
theorem Lawful.clear {signers : List (Bytes 32)} {tr : List DeskEvent} {s : Desk}
    {e : DeskEvent} (hrun : (machine cr).run (opened signers) tr = some s)
    (lawful : s.Lawful cr e) : s.Clear cr e where
  live i ap now auditNow h he hget live := by
    by_contra hne
    exact lawful.liveDecides i ap now auditNow h he hget live
      ((answer_actionNotPending_iff cr hrun h ap now auditNow).mpr hne)
  approved i ap now auditNow h he hget happ hc :=
    (answer_actionNotPending_iff cr hrun h ap now auditNow).mp
      (lawful.approvedRefuses i ap now auditNow h he hget happ hc)
  deny i auditNow h he hget hc := by
    by_contra happ
    rw [Bool.not_eq_false] at happ
    have t := tally_run cr hrun h (List.mem_of_getElem? hget)
    have hstep : s.step cr e = some (s.serveOn cr i { h with consumed := true }
        (.deny h.pending auditNow)) := by
      simp only [he, step, hget, hc, Option.bind_eq_bind, Option.bind_some,
        if_neg Bool.false_ne_true]
    have hone := lawful.oneRecord _ hstep _ (List.mem_set (List.getElem?_eq_some_iff.mp hget).1 _)
    rw [List.length_append, length_newRecords_deny] at hone
    exact absurd (t.approved happ) (Nat.not_le_of_lt hone)

/-- After a lawful run no handle has written two records. -/
theorem oneRecord_of_lawful {signers : List (Bytes 32)} {tr : List DeskEvent} {s : Desk}
    (lawful : (machine cr).Along (opened signers) (Lawful cr) tr)
    (hrun : (machine cr).run (opened signers) tr = some s) :
    ∀ h ∈ s.handles, h.records.length ≤ 1 := by
  rcases List.eq_nil_or_concat tr with rfl | ⟨tr', e, rfl⟩
  · cases hrun
    simp [opened]
  · rw [List.concat_eq_append] at lawful hrun
    obtain ⟨s₁, hrun₁, hstep⟩ := (machine cr).run_snoc_some.mp hrun
    exact (((machine cr).along_snoc.mp lawful).2 s₁ hrun₁).oneRecord s hstep

/-- **Exactly the clear runs keep the promise of every handle.** -/
theorem lawful_iff_clear (signers : List (Bytes 32)) (tr : List DeskEvent) :
    (machine cr).Along (opened signers) (Lawful cr) tr ↔
      (machine cr).Along (opened signers) (Clear cr) tr := by
  constructor
  · intro h before e later s htr hrun
    exact (h before e later s htr hrun).clear cr hrun
  · intro h
    induction tr using List.reverseRecOn with
    | nil => exact (machine cr).along_nil _ _
    | append_singleton tr e ih =>
      obtain ⟨hclear, hlast⟩ := (machine cr).along_snoc.mp h
      have hlawful := ih hclear
      refine (machine cr).along_snoc.mpr ⟨hlawful, ?_⟩
      intro s hrun
      exact (hlast s hrun).lawful cr hrun (oneRecord_of_lawful cr hlawful hrun)

/-- A digest, a key and a signature that accept everything. -/
def sampleCrypto : Crypto where
  sha256 _ := .fill 32 0
  isKey _ := true
  verify _ _ _ := true

def sampleSigner : Bytes 32 := .fill 32 7

/-- An approval of the sample signer with a nonce of the given byte. -/
def sampleApproval (n : UInt8) : Approval :=
  ⟨sampleSigner, .fill 32 n, 100, .fill 64 0⟩

def sampleAction : ActionRequest := ⟨"acp:tool", "run shell: ls", []⟩

/-- Three runs that break the promise: an approval of one of two handles of an action leaves the
other live handle undecidable; a submission makes an approved handle decidable again; and an
approved handle is recorded as denied. -/
theorem not_lawful_runs :
    ¬ (machine sampleCrypto).Along (opened [sampleSigner]) (Lawful sampleCrypto)
      [.submit sampleAction, .submit sampleAction, .decide 0 (sampleApproval 1) 60 60,
        .decide 1 (sampleApproval 2) 61 61] ∧
    ¬ (machine sampleCrypto).Along (opened [sampleSigner]) (Lawful sampleCrypto)
      [.submit sampleAction, .decide 0 (sampleApproval 1) 60 60, .submit sampleAction,
        .decide 0 (sampleApproval 2) 61 61] ∧
    ¬ (machine sampleCrypto).Along (opened [sampleSigner]) (Lawful sampleCrypto)
      [.submit sampleAction, .decide 0 (sampleApproval 1) 60 60, .deny 0 61] := by
  refine ⟨?_, ?_, ?_⟩
  · intro h
    exact (h [_, _, _] _ [] _ rfl rfl).liveDecides 1 _ _ _ _ rfl rfl ⟨rfl, rfl⟩ rfl
  · intro h
    exact absurd ((h [_, _, _] _ [] _ rfl rfl).approvedRefuses 0 _ _ _ _ rfl rfl rfl rfl) nofun
  · intro h
    have hone := (h [_, _] _ [] _ rfl rfl).oneRecord _ rfl _ (List.mem_singleton.mpr rfl)
    exact absurd hone (by decide)

end Desk

end GooseClaw
