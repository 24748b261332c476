import GooseClaw.Vault.Server
import GooseClaw.Vault.Serving
import GooseClaw.Vault.Unreachable

/-!
# Where a call stands in the rig

A call in progress is at a phase, and the connections it holds are good ones for any notion of good that
dialling keeps (`Phase.at_next`). What a call returns is fixed by what it was granted: in a vault that
has the note, a call that gets every answer it asks for is served (`Phase.serving_next`), and one that reports
an outage leaves its client offline.

`Rig.Calls` says so of the rig, and `Rig.run_linked` that every connection held in a run is one of the
rig's.
-/

namespace GooseClaw

open Found

/-! ## What a call returns -/

/-- The caller is told that Alfred was not reached. -/
def Outcome.reportsOutage : Outcome → Bool
  | .read (.ok r) => r.stale
  | .read (.error _) => true
  | .write (.error .muted) => true
  | .write _ => false

/-- The call was served. A read gave a copy of the note that is not stale. A write was accepted with a
version, or met a conflict and gave the note; or it was told to read the note first, which the client says
without asking anyone when it holds no copy to take a version from. -/
def Op.ServedBy : Op → Outcome → Prop
  | .read path, .read (.ok r) => r.path = path ∧ r.stale = false
  | .write _ _, .write (.ok (.written _)) => True
  | .write path _, .write (.ok (.conflict fresh)) => fresh.path = path ∧ fresh.stale = false
  | .write path _, .write (.error e) => e = .mustReadFirst path
  | _, _ => False

/-! ## Phases over good connections -/

/-- The connection of a client that is online is a good one. -/
def VaultClient.Over (good : ConnId → Prop) (c : VaultClient) : Prop :=
  c.offline = false → ∀ k, c.conn = some k → good k

/-- The errand is one of the call's. -/
def Errand.Of (op : Op) (path : String) : Errand → Prop
  | .read => op = .read path
  | .revalidate content => op = .write path content
  | .reread => ∃ content, op = .write path content

/-- The surroundings connect to good connections only. -/
def Ask.Permits (good : ConnId → Prop) : (q : Ask) → q.Reply → Prop
  | .connect, reply => ∀ k, reply = .ok k → good k
  | .callTool _ _, _ => True

/-- The surroundings do what they are asked for: they connect, and a vault of the kind answers. -/
def Ask.Granted (serde : JsonSerde) (kind : FakeVault → Prop) : (q : Ask) → q.Reply → Prop
  | .connect, reply => ∃ k, reply = .ok k
  | .callTool _ call, reply => ∃ v, kind v ∧ reply = .ok (v.answer serde.toString call).1

namespace Phase

/-- A phase of the call over good connections. A call that reports an outage leaves the client
offline. -/
def At (good : ConnId → Prop) (op : Op) : Phase → Prop
  | .reconnecting op' _ => op' = op
  | .dialing why path c => why.Of op path ∧ c.Over good
  | .fetching why path conn c => why.Of op path ∧ good conn ∧ c.Over good
  | .dialingWrite path content _ c => op = .write path content ∧ c.Over good
  | .writing path content _ conn c => op = .write path content ∧ good conn ∧ c.Over good
  | .done outcome c => c.Over good ∧ (outcome.reportsOutage = true → c.offline = true)

/-- A call on one of the paths does not end unserved. -/
def Serving (paths : String → Prop) (op : Op) : Phase → Prop
  | .done outcome _ => paths op.path → op.ServedBy outcome
  | _ => True

section At

variable {good : ConnId → Prop} {op : Op} {path content : String} {c : VaultClient} {why : Errand}

theorem over_of_offline (h : c.offline = true) : c.Over good := by
  intro hon
  rw [h] at hon
  cases hon

theorem over_connected {k : ConnId} (h : good k) (c : VaultClient) : (c.connected k).Over good := by
  rintro - k' ⟨⟩
  exact h

theorem at_fetch (hwhy : why.Of op path) (h : c.Over good) : (fetch why path c).At good op := by
  unfold fetch
  split
  · next conn hoff hconn => exact ⟨hwhy, h hoff conn hconn, h⟩
  · exact ⟨hwhy, h⟩

theorem at_submit (hop : op = .write path content) (h : c.Over good) :
    (submit path content c).At good op := by
  unfold submit send
  split
  · exact ⟨h, nofun⟩
  · split
    · next conn hoff hconn => exact ⟨hop, h hoff conn hconn, h⟩
    · exact ⟨hop, h⟩

theorem at_online (h : c.Over good) (now : Instant) : (online op now c).At good op := by
  cases op with
  | read path =>
    unfold online
    dsimp only
    split
    · exact ⟨h, nofun⟩
    · exact at_fetch rfl h
  | write path content =>
    unfold online
    dsimp only
    split
    · have hwhy : (Errand.revalidate content).Of (.write path content) path := rfl
      exact at_fetch hwhy h
    · exact at_submit rfl h

theorem at_readOffline (e : KnowledgeError) (h : c.offline = true) :
    (readOffline path e c).At good op := by
  unfold readOffline
  split <;> exact ⟨over_of_offline h, fun _ => h⟩

theorem at_writeFailed (e : KnowledgeError) (c : VaultClient) : (writeFailed e c).At good op := by
  cases e <;> exact ⟨over_of_offline rfl, fun _ => rfl⟩

theorem at_fetchFailed {e : KnowledgeError} (he : e ≠ .muted) (hwhy : why.Of op path)
    (h : c.Over good) : (fetchFailed why e path c).At good op := by
  cases why with
  | read => exact at_readOffline e rfl
  | revalidate content =>
    refine ⟨h, ?_⟩
    cases e with
    | muted => exact absurd rfl he
    | _ => nofun
  | reread => exact at_writeFailed e c

theorem at_fetched {r : ReadResult} (hr : r.stale = false) (hwhy : why.Of op path)
    (h : c.Over good) : (fetched why r path c).At good op := by
  cases why with
  | read =>
    refine ⟨h, ?_⟩
    rw [Outcome.reportsOutage, hr]
    nofun
  | revalidate content => exact at_submit hwhy h
  | reread => exact ⟨h, nofun⟩

theorem At.mono {φ : Phase} (h : φ.At good op) {good' : ConnId → Prop}
    (hgood : ∀ k, good k → good' k) : φ.At good' op := by
  have hover : ∀ c : VaultClient, c.Over good → c.Over good' :=
    fun c hc hon k hk => hgood k (hc hon k hk)
  cases φ with
  | reconnecting op' c => exact h
  | dialing why path c => exact ⟨h.1, hover c h.2⟩
  | fetching why path conn c => exact ⟨h.1, hgood conn h.2.1, hover c h.2.2⟩
  | dialingWrite path content expected c => exact ⟨h.1, hover c h.2⟩
  | writing path content expected conn c => exact ⟨h.1, hgood conn h.2.1, hover c h.2.2⟩
  | done outcome c => exact ⟨hover c h.1, h.2⟩

/-- **The start of a call.** -/
theorem at_start (h : c.Over good) (now : Instant) : (start op c now).At good op := by
  unfold start
  split
  · exact rfl
  · exact at_online h now

variable {fromStr : String → Except String Json}

theorem at_readAnswered (hwhy : why.Of op path) (h : c.Over good) (now : Instant)
    (reply : ToolReply) : (readAnswered fromStr why path c now reply).At good op := by
  unfold readAnswered
  split
  · next e => exact at_fetchFailed (by cases e <;> nofun) hwhy h
  · exact at_fetchFailed nofun hwhy h
  · split
    · exact at_fetchFailed nofun hwhy h
    · exact at_fetched rfl hwhy h

theorem at_writeAnswered (hop : op = .write path content) (h : c.Over good) (now : Instant)
    (reply : ToolReply) : (writeAnswered fromStr path content c now reply).At good op := by
  unfold writeAnswered
  split
  · exact at_writeFailed _ c
  · split
    · exact at_writeFailed _ c
    · split
      · split
        · exact at_fetch ⟨content, hop⟩ h
        · exact at_writeFailed _ c
      · split
        · exact at_writeFailed _ c
        · exact ⟨h, nofun⟩

/-- **Every answer leads from a phase of the call to one.** -/
theorem at_next {φ : Phase} {q : Ask} {next : q.Answer → Phase} (h : φ.At good op)
    (hv : φ.view fromStr = .waiting q next) (a : q.Answer) (ha : q.Permits good a.1) :
    (next a).At good op := by
  cases φ with
  | reconnecting op' c =>
    cases hv
    obtain ⟨e | k, now⟩ := a
    · cases h
      cases op with
      | read path => exact at_readOffline .offline rfl
      | write path content => exact ⟨over_of_offline rfl, fun _ => rfl⟩
    · exact h ▸ at_online (over_connected (ha k rfl) c) now
  | dialing why path c =>
    cases hv
    obtain ⟨e | k, now⟩ := a
    · exact at_fetchFailed (by cases e <;> nofun) h.1 h.2
    · exact ⟨h.1, ha k rfl, over_connected (ha k rfl) c⟩
  | fetching why path conn c =>
    cases hv
    exact at_readAnswered h.1 h.2.2 a.2 a.1
  | dialingWrite path content expected c =>
    cases hv
    obtain ⟨e | k, now⟩ := a
    · exact at_writeFailed _ c
    · exact ⟨h.1, ha k rfl, over_connected (ha k rfl) c⟩
  | writing path content expected conn c =>
    cases hv
    exact at_writeAnswered h.1 h.2.2 a.2 a.1
  | done outcome c => cases hv

/-- A tool is called over a good connection. -/
theorem at_callTool {φ : Phase} {k : ConnId} {call : ToolCall}
    {next : Ask.Answer (.callTool k call) → Phase} (h : φ.At good op)
    (hv : φ.view fromStr = .waiting (.callTool k call) next) : good k := by
  cases φ with
  | fetching why path conn c =>
    cases hv
    exact h.2.1
  | writing path content expected conn c =>
    cases hv
    exact h.2.1
  | _ => cases hv

end At

end Phase

/-! ## Calls that are granted -/

/-- An errand is for the note of its call. -/
theorem Errand.Of.path_eq {why : Errand} {op : Op} {path : String} (h : why.Of op path) :
    op.path = path := by
  cases why with
  | read => exact congrArg Op.path h
  | revalidate content => exact congrArg Op.path h
  | reread =>
    obtain ⟨content, rfl⟩ := h
    rfl

theorem FakeVault.canonical_conflictBody (path : String) (current : Option String) :
    (conflictBody path current).Canonical := by
  refine ⟨?_, ?_, trivial, trivial, trivial, trivial⟩
  · show ["currentVersion", "error", "ok", "path"].Pairwise (· < ·)
    decide
  · cases current <;> exact trivial

namespace Phase

section Serving

variable {serde : JsonSerde} {paths : String → Prop} {op : Op} {path content : String}
  {c : VaultClient} {why : Errand}

theorem serving_of_not (h : ¬ paths op.path) (φ : Phase) : φ.Serving paths op := by
  cases φ with
  | done outcome c => exact fun hp => absurd hp h
  | _ => trivial

theorem serving_fetch : (fetch why path c).Serving paths op := by
  unfold fetch
  split <;> trivial

theorem serving_submit (hop : op = .write path content) :
    (submit path content c).Serving paths op := by
  subst hop
  unfold submit send
  split
  · exact fun _ => rfl
  · split <;> trivial

theorem serving_online (now : Instant) : (online op now c).Serving paths op := by
  cases op with
  | read path =>
    unfold online
    dsimp only
    split
    · exact fun _ => ⟨rfl, rfl⟩
    · exact serving_fetch
  | write path content =>
    unfold online
    dsimp only
    split
    · exact serving_fetch
    · exact serving_submit rfl

theorem serving_start (now : Instant) : (start op c now).Serving paths op := by
  unfold start
  split
  · trivial
  · exact serving_online now

theorem serving_fetched {content : String} {version : Option String} (hwhy : why.Of op path) :
    (fetched why ⟨path, content, version, false⟩ path c).Serving paths op := by
  cases why with
  | read =>
    obtain rfl := hwhy
    exact fun _ => ⟨rfl, rfl⟩
  | revalidate content => exact serving_submit hwhy
  | reread =>
    obtain ⟨content, rfl⟩ := hwhy
    exact fun _ => ⟨rfl, rfl⟩

/-- A fetch that a vault answers. -/
theorem readAnswered_answer (lawful : serde.Lawful) (why : Errand) (c : VaultClient) (now : Instant)
    {v : FakeVault} {n : UInt64} (hnote : v.notes path = some (content, n)) :
    readAnswered serde.fromStr why path c now (.ok (v.answer serde.toString (.vaultRead path)).1) =
      fetched why ⟨path, content, some (versionText n), false⟩ path
        (learned c path ⟨content, some (versionText n), now⟩) := by
  simp only [FakeVault.answer, hnote, readAnswered,
    lawful.readBack _ (FakeVault.canonical_readBody path content n)]
  rfl

/-- A write that a vault accepts. -/
theorem writeAnswered_written (lawful : serde.Lawful) (c : VaultClient) (now : Instant)
    {v : FakeVault} {expected : Option String}
    (h : (v.notes path).map (fun e => versionText e.2) = expected) :
    writeAnswered serde.fromStr path content c now
        (.ok (v.answer serde.toString (.vaultWrite path content expected)).1) =
      .done (.write (.ok (.written (versionText (((v.notes path).map fun e => e.2 + 1).getD 1)))))
        (learned c path ⟨content,
          some (versionText (((v.notes path).map fun e => e.2 + 1).getD 1)), now⟩) := by
  simp only [FakeVault.answer, h, if_true, writeAnswered,
    lawful.readBack _ (FakeVault.canonical_writtenBody path _)]
  rfl

/-- A write that a vault refuses. -/
theorem writeAnswered_conflict (lawful : serde.Lawful) (c : VaultClient) (now : Instant)
    {v : FakeVault} {expected : Option String}
    (h : (v.notes path).map (fun e => versionText e.2) ≠ expected) :
    writeAnswered serde.fromStr path content c now
        (.ok (v.answer serde.toString (.vaultWrite path content expected)).1) =
      fetch .reread path (discarded c path) := by
  have hconflict : ∀ text current, VaultClient.isConflict text (FakeVault.conflictBody path current) = true :=
    fun _ _ => rfl
  simp only [FakeVault.answer, h, if_false, writeAnswered,
    lawful.readBack _ (FakeVault.canonical_conflictBody path _), hconflict, if_true]

/-- **A call that is granted what it asks for does not end unserved.** -/
theorem serving_next (lawful : serde.Lawful) {good : ConnId → Prop} {φ : Phase} {q : Ask}
    {next : q.Answer → Phase} (h : φ.At good op) (hv : φ.view serde.fromStr = .waiting q next)
    (a : q.Answer) (ha : q.Granted serde (FakeVault.Holds paths) a.1) :
    (next a).Serving paths op := by
  cases φ with
  | reconnecting op' c =>
    cases hv
    obtain ⟨reply, now⟩ := a
    obtain ⟨k, rfl⟩ := ha
    obtain rfl : op' = op := h
    exact serving_online now
  | dialing why path c =>
    cases hv
    obtain ⟨reply, now⟩ := a
    obtain ⟨k, rfl⟩ := ha
    trivial
  | fetching why path conn c =>
    cases hv
    obtain ⟨reply, now⟩ := a
    obtain ⟨v, hv, rfl⟩ := ha
    cases hnote : v.notes path with
    | none =>
      refine serving_of_not ?_ _
      rw [h.1.path_eq]
      intro hp
      have hsome := hv path hp
      rw [hnote] at hsome
      cases hsome
    | some entry =>
      dsimp only
      rw [readAnswered_answer lawful why c now hnote]
      exact serving_fetched h.1
  | dialingWrite path content expected c =>
    cases hv
    obtain ⟨reply, now⟩ := a
    obtain ⟨k, rfl⟩ := ha
    trivial
  | writing path content expected conn c =>
    cases hv
    obtain ⟨reply, now⟩ := a
    obtain ⟨v, -, rfl⟩ := ha
    obtain rfl : op = .write path content := h.1
    dsimp only
    by_cases hcurrent : (v.notes path).map (fun e => versionText e.2) = expected
    · rw [writeAnswered_written lawful c now hcurrent]
      exact fun _ => trivial
    · rw [writeAnswered_conflict lawful c now hcurrent]
      exact serving_fetch
  | done outcome c => cases hv

end Serving

end Phase

/-! ## The rig between two answers -/

/-- The stage is that of what is waited for. -/
def Stage.Fits : Stage → View Ask Ask.Answer (Outcome × VaultClient)
    (Program Ask Ask.Answer (Outcome × VaultClient)) → Prop
  | .tool, .waiting (.callTool _ _) _ => True
  | .probe, .waiting .connect _ => True
  | .handshake, .waiting .connect _ => True
  | _, _ => False

namespace Rig

variable {serde : JsonSerde} {good : ConnId → Prop} {paths : String → Prop} {s s' : Rig}

/-- The call in progress is at a phase over good connections, and so is a client between two calls. -/
structure Calls (serde : JsonSerde) (good : ConnId → Prop) (s : Rig) : Prop where
  idle : s.running = none → s.client.Over good
  busy : ∀ r, s.running = some r →
    ∃ φ, Follows (Phase.view serde.fromStr) φ r.process ∧ φ.At good r.op

/-- What a step gives the caller: an outage only from a client that knows of it, and on one of the
paths what was asked for. -/
structure Gives (paths : String → Prop) (s s' : Rig) (new : Option (Op × Outcome)) : Prop where
  returns : s'.returns = s.returns ++ new.toList
  outage : ∀ x ∈ new, x.2.reportsOutage = true → s'.running = none ∧ s'.client.offline = true
  served : ∀ x ∈ new, paths x.1.path → x.1.ServedBy x.2

theorem Calls.mono (h : s.Calls serde good) {good' : ConnId → Prop} (hgood : ∀ k, good k → good' k)
    (hrun : s'.running = s.running) (hclient : s'.client = s.client) : s'.Calls serde good' where
  idle := by
    rw [hrun, hclient]
    exact fun hidle hon k hk => hgood k (h.idle hidle hon k hk)
  busy := by
    rw [hrun]
    intro r hr
    obtain ⟨φ, hf, hat⟩ := h.busy r hr
    exact ⟨φ, hf, hat.mono hgood⟩

/-- A step that leaves the call alone gives nothing. -/
theorem gives_none (h : s'.returns = s.returns) : Gives paths s s' none where
  returns := h.trans (List.append_nil _).symm
  outage := nofun
  served := nofun

theorem setLink_get {k : ConnId} {link : Link} (hlink : s.links[k]? = some link) (link' : Link) :
    (s.setLink k link').links[k]? = some link' :=
  List.getElem?_set_self (List.getElem?_eq_some_iff.mp hlink).1

/-! ### Going on -/

@[simp] theorem proceed_links (s : Rig) (op : Op)
    (p : Program Ask Ask.Answer (Outcome × VaultClient)) : (s.proceed op p).links = s.links := by
  unfold proceed
  split <;> rfl

@[simp] theorem proceed_vault (s : Rig) (op : Op)
    (p : Program Ask Ask.Answer (Outcome × VaultClient)) : (s.proceed op p).vault = s.vault := by
  unfold proceed
  split <;> rfl

@[simp] theorem proceed_down (s : Rig) (op : Op)
    (p : Program Ask Ask.Answer (Outcome × VaultClient)) : (s.proceed op p).down = s.down := by
  unfold proceed
  split <;> rfl

/-- A call that goes on waits for nothing yet. -/
theorem proceed_waiting {op : Op} {p : Program Ask Ask.Answer (Outcome × VaultClient)} {r : RigCall}
    (h : (s.proceed op p).running = some r) : r.waiting = none := by
  unfold proceed at h
  split at h
  · cases h
  · cases h
    rfl

/-- A call that goes on asks for something. -/
theorem proceed_asks {op : Op} {p : Program Ask Ask.Answer (Outcome × VaultClient)} {r : RigCall}
    (h : (s.proceed op p).running = some r) : ∃ q next, r.process.view = .waiting q next := by
  unfold proceed at h
  split at h
  · cases h
  · next q next hv =>
    cases h
    exact ⟨q, next, hv⟩

/-- A call that is done returns. -/
theorem proceed_done {fromStr : String → Except String Json} {outcome : Outcome} {c : VaultClient}
    {p : Program Ask Ask.Answer (Outcome × VaultClient)}
    (h : Follows (Phase.view fromStr) (.done outcome c) p) (s : Rig) (op : Op) :
    s.proceed op p =
      { s with client := c, running := none, returns := s.returns ++ [(op, outcome)] } := by
  rw [h.eq_ret rfl]
  rfl

/-- A call that waits goes on. -/
theorem proceed_ask {fromStr : String → Except String Json} {φ : Phase} {q : Ask}
    {next : q.Answer → Phase} {p : Program Ask Ask.Answer (Outcome × VaultClient)}
    (h : Follows (Phase.view fromStr) φ p) (hφ : φ.view fromStr = .waiting q next) (s : Rig)
    (op : Op) : s.proceed op p = { s with running := some ⟨op, p, none⟩ } := by
  obtain ⟨next', rfl, -⟩ := h.eq_ask hφ
  rfl

/-- A call that is at a phase returns or goes on. -/
theorem proceed_cases {fromStr : String → Except String Json} {φ : Phase}
    {p : Program Ask Ask.Answer (Outcome × VaultClient)} (h : Follows (Phase.view fromStr) φ p)
    (s : Rig) (op : Op) :
    (∃ outcome c, φ = .done outcome c ∧ s.proceed op p =
      { s with client := c, running := none, returns := s.returns ++ [(op, outcome)] }) ∨
    s.proceed op p = { s with running := some ⟨op, p, none⟩ } := by
  cases φ with
  | done outcome c => exact .inl ⟨outcome, c, rfl, proceed_done h s op⟩
  | _ => exact .inr (proceed_ask h rfl s op)

theorem calls_proceed {φ : Phase} {p : Program Ask Ask.Answer (Outcome × VaultClient)} {op : Op}
    (hf : Follows (Phase.view serde.fromStr) φ p) (hat : φ.At good op) (s : Rig) :
    (s.proceed op p).Calls serde good := by
  rcases proceed_cases hf s op with ⟨outcome, c, rfl, heq⟩ | heq
  · rw [heq]
    exact ⟨fun _ => hat.1, nofun⟩
  · rw [heq]
    refine ⟨nofun, ?_⟩
    rintro r ⟨⟩
    exact ⟨φ, hf, hat⟩

theorem gives_proceed {φ : Phase} {p : Program Ask Ask.Answer (Outcome × VaultClient)} {op : Op}
    (hf : Follows (Phase.view serde.fromStr) φ p) (hat : φ.At good op)
    (hserving : φ.Serving paths op) {s s₁ : Rig} (hreturns : s₁.returns = s.returns) :
    ∃ new, Gives paths s (s₁.proceed op p) new := by
  rcases proceed_cases hf s₁ op with ⟨outcome, c, rfl, heq⟩ | heq
  · refine ⟨some (op, outcome), ?_, ?_, ?_⟩
    · rw [heq, ← hreturns]
      rfl
    · rintro x ⟨⟩ hout
      rw [heq]
      exact ⟨rfl, hat.2 hout⟩
    · rintro x ⟨⟩
      exact hserving
  · exact ⟨none, gives_none (by rw [heq]; exact hreturns)⟩

/-- Where an answer takes the call in progress. -/
theorem Calls.next (h : s.Calls serde good) {r : RigCall} (hrun : s.running = some r) {q : Ask}
    {next : q.Answer → Program Ask Ask.Answer (Outcome × VaultClient)}
    (hv : r.process.view = .waiting q next) :
    ∃ (φ : Phase) (next' : q.Answer → Phase), φ.At good r.op ∧
      φ.view serde.fromStr = .waiting q next' ∧
      ∀ a, Follows (Phase.view serde.fromStr) (next' a) (next a) := by
  obtain ⟨φ, hf, hat⟩ := h.busy r hrun
  rcases hf.view_eq with ⟨a, hdone, -⟩ | ⟨q', next', next'', hv', hφ, hnext⟩
  · cases hv.symm.trans hdone
  · cases hv.symm.trans hv'
    exact ⟨φ, next', hat, hφ, hnext⟩

/-- The call goes on with an answer. -/
theorem Calls.answered (lawful : serde.Lawful) (h : s.Calls serde good) {r : RigCall}
    (hrun : s.running = some r) {q : Ask}
    {next : q.Answer → Program Ask Ask.Answer (Outcome × VaultClient)}
    (hv : r.process.view = .waiting q next) {a : q.Answer} (hpermits : q.Permits good a.1)
    (hgranted : (∀ p, ¬ paths p) ∨ q.Granted serde (FakeVault.Holds paths) a.1) (s₁ : Rig)
    (hreturns : s₁.returns = s.returns) :
    (s₁.proceed r.op (next a)).Calls serde good ∧
      ∃ new, Gives paths s (s₁.proceed r.op (next a)) new := by
  obtain ⟨φ, next', hat, hφ, hnext⟩ := h.next hrun hv
  have hat' := Phase.at_next hat hφ a hpermits
  have hserving : (next' a).Serving paths r.op := by
    rcases hgranted with hnone | hgranted
    · exact Phase.serving_of_not (hnone _) _
    · exact Phase.serving_next lawful hat hφ a hgranted
  exact ⟨calls_proceed (hnext a) hat' s₁, gives_proceed (hnext a) hat' hserving hreturns⟩

/-- The call in progress waits on. -/
theorem Calls.await (h : s.Calls serde good) {r : RigCall} (hrun : s.running = some r) (s₁ : Rig)
    (k : ConnId) (stage : Stage) : (s₁.await r k stage).Calls serde good where
  idle := nofun
  busy := by
    rintro r' ⟨⟩
    exact h.busy r hrun

/-! ### Every run -/

/-- Every connection a call or a client holds is one of the rig's. -/
structure Linked (serde : JsonSerde) (s : Rig) : Prop where
  calls : s.Calls serde (· < s.links.length)
  asks : ∀ r, s.running = some r → ∃ q next, r.process.view = .waiting q next
  waiting : ∀ r, s.running = some r → ∀ w ∈ r.waiting, w.1 < s.links.length ∧ w.2.Fits r.process.view

theorem linked_new : Rig.new.Linked serde where
  calls :=
    { idle := fun _ _ k hk => by cases hk
      busy := fun r hr => by cases hr }
  asks := fun r hr => by cases hr
  waiting := fun r hr => by cases hr

/-- Between two answers nothing is waited for. -/
theorem linked_proceed {op : Op} {p : Program Ask Ask.Answer (Outcome × VaultClient)} {n : Nat}
    (hn : n = s.links.length) (h : (s.proceed op p).Calls serde (· < n)) :
    (s.proceed op p).Linked serde where
  calls := by
    rw [proceed_links, ← hn]
    exact h
  asks := fun _ hr => proceed_asks hr
  waiting := by
    intro r hr w hw
    rw [proceed_waiting hr] at hw
    cases hw

/-- A request was written, or the call goes on with the error. -/
theorem Linked.written (lawful : serde.Lawful) (h : s.Linked serde) {r : RigCall}
    (hrun : s.running = some r) {q : Ask}
    {next : q.Answer → Program Ask Ask.Answer (Outcome × VaultClient)}
    (hv : r.process.view = .waiting q next) {k : ConnId} (hk : k < s.links.length) {stage : Stage}
    (hfits : stage.Fits r.process.view) (failed : McpError → q.Answer)
    (hfailed : ∀ e, q.Permits (· < s.links.length) (failed e).1) (result : Except McpError Unit × Link) :
    (s.written r k stage (fun e => next (failed e)) result).Linked serde ∧
      ∃ new, Gives (fun _ => False) s (s.written r k stage (fun e => next (failed e)) result) new := by
  obtain ⟨e | ⟨⟩, link⟩ := result
  · obtain ⟨hcalls, hgives⟩ := h.calls.answered lawful hrun hv (hfailed e) (.inl fun _ => id)
      (s.setLink k link) rfl
    exact ⟨linked_proceed List.length_set.symm hcalls, hgives⟩
  · refine ⟨⟨?_, ?_, ?_⟩, none, gives_none rfl⟩
    · show Calls serde (· < (s.links.set k link).length) _
      rw [List.length_set]
      exact h.calls.await hrun _ k stage
    · rintro r' ⟨⟩
      exact ⟨q, next, hv⟩
    · rintro r' ⟨⟩ w ⟨⟩
      exact ⟨Nat.lt_of_lt_of_eq hk List.length_set.symm, hfits⟩

/-- What happens elsewhere. -/
theorem Linked.elsewhere (h : s.Linked serde) (hlinks : s'.links.length = s.links.length)
    (hrun : s'.running = s.running) (hclient : s'.client = s.client) : s'.Linked serde where
  calls := h.calls.mono (fun _ hk => hlinks ▸ hk) hrun hclient
  asks := by
    rw [hrun]
    exact h.asks
  waiting := by
    rw [hrun, hlinks]
    exact h.waiting

theorem linked_step (lawful : serde.Lawful) (h : s.Linked serde) {e : RigEvent}
    (hs : s.step serde e = some s') :
    s'.Linked serde ∧ ∃ new, Gives (fun _ => False) s s' new := by
  have hlt : ∀ {k : ConnId} {link : Link}, s.links[k]? = some link → k < s.links.length :=
    fun hlink => (List.getElem?_eq_some_iff.mp hlink).1
  cases step_moves hs with
  | @call op hrun =>
    have hat : (Phase.start op s.client s.time).At _ op := Phase.at_start (h.calls.idle hrun) s.time
    have hf : Follows (Phase.view serde.fromStr) (Phase.start op s.client s.time) _ :=
      Phase.start_follows op s.client s.time
    exact ⟨linked_proceed rfl (calls_proceed hf hat s),
      gives_proceed hf hat (Phase.serving_of_not id _) rfl⟩
  | @dial r next hrun hwait hv =>
    unfold Rig.dial
    split
    · obtain ⟨hcalls, hgives⟩ := h.calls.answered lawful hrun hv
        (a := (.error (.factory "alfred is down"), s.time)) nofun (.inl fun _ => id) s rfl
      exact ⟨linked_proceed rfl hcalls, hgives⟩
    · refine ⟨⟨?_, ?_, ?_⟩, none, gives_none rfl⟩
      · refine (h.calls.await hrun s s.links.length .probe).mono ?_ rfl rfl
        intro k hk
        exact Nat.lt_of_lt_of_le hk (List.length_append ▸ Nat.le_add_right _ _)
      · rintro r' ⟨⟩
        exact ⟨_, next, hv⟩
      · rintro r' ⟨⟩ w ⟨⟩
        refine ⟨?_, by rw [hv]; trivial⟩
        show s.links.length < (s.links ++ [Link.dialled]).length
        rw [List.length_append]
        exact Nat.lt_succ_self _
  | @send r k call link next hrun hwait hv hlink =>
    exact h.written lawful hrun hv (hlt hlink) (by rw [hv]; trivial) (fun e => (.error e, s.time))
      (fun _ => trivial) _
  | @probed r k link deadline next hrun hwait hv hlink =>
    exact h.written lawful hrun hv (hlt hlink) (by rw [hv]; trivial)
      (fun e => (.error (.handshake e), s.time)) nofun _
  | @initialized r k link deadline next hrun hwait hv hlink =>
    have hgo : ∀ (link' : Link) (answer : Except ConnectError ConnId),
        (∀ k', answer = .ok k' → k' = k) →
        ((s.setLink k link').proceed r.op (next (answer, s.time))).Linked serde ∧
          ∃ new, Gives (fun _ => False) s
            ((s.setLink k link').proceed r.op (next (answer, s.time))) new := by
      intro link' answer hanswer
      obtain ⟨hcalls, hgives⟩ := h.calls.answered lawful hrun hv (a := (answer, s.time))
        (fun k' hk' => hanswer k' hk' ▸ hlt hlink) (.inl fun _ => id) (s.setLink k link') rfl
      exact ⟨linked_proceed List.length_set.symm hcalls, hgives⟩
    unfold Rig.finish
    split
    · exact hgo _ _ nofun
    · split
      · exact hgo _ _ nofun
      · exact hgo _ _ (by rintro k' ⟨⟩; rfl)
  | @answered r k k' call link deadline next hrun hwait hv hlink =>
    obtain ⟨hcalls, hgives⟩ := h.calls.answered lawful hrun hv
      (a := ((link.settle serde deadline).1.map toolBody, s.time)) trivial (.inl fun _ => id)
      (s.setLink k (link.settle serde deadline).2) rfl
    exact ⟨linked_proceed List.length_set.symm hcalls, hgives⟩
  | serve => exact ⟨h.elsewhere List.length_set rfl rfl, none, gives_none rfl⟩
  | humanEdit => exact ⟨h.elsewhere rfl rfl rfl, none, gives_none rfl⟩
  | killAll => exact ⟨h.elsewhere (List.length_map _) rfl rfl, none, gives_none rfl⟩
  | restart => exact ⟨h.elsewhere rfl rfl rfl, none, gives_none rfl⟩
  | tick => exact ⟨h.elsewhere rfl rfl rfl, none, gives_none rfl⟩

theorem run_linked (lawful : serde.Lawful) {tr : List RigEvent}
    (h : (machine serde).run new tr = some s) : s.Linked serde :=
  (machine serde).history (P := fun _ s => s.Linked serde) linked_new
    (fun _ _ _ _ _ hs hstep => (linked_step lawful hs hstep).1) h

end Rig

end GooseClaw
