import GooseClaw.Vault.Answers

/-!
# Calls on other notes

A call looks at the copy of its own note and at no other. So two clients that differ in their copy of one
note only cannot be told apart by calls on other notes (`sameElsewhere_of_agreeOff`): whatever the
surroundings answer, they ask the same and return the same.

The converse is not claimed. What tells two clients apart here is whether they are bound to revalidate
(`not_sameElsewhere_of_armed`).
-/

namespace GooseClaw

open Found VaultClient

/-- The note a call is about. -/
def Op.path : Op → String
  | .read path => path
  | .write path _ => path

/-! ## Calls one after the other -/

/-- A call as its caller and its surroundings see it. -/
structure CallRecord where
  op : Op
  start : Instant
  dialogue : Dialogue Ask Ask.Answer
  outcome : Outcome

section Calls

variable (fromStr : String → Except String Json)

/-- The client makes these calls, with these answers and outcomes, and ends as another. -/
inductive Calls : VaultClient → List CallRecord → VaultClient → Prop
  | nil (c : VaultClient) : Calls c [] c
  | cons {c c₁ c' : VaultClient} {m : CallRecord} {calls : List CallRecord} :
      (m.op.program fromStr c m.start).Reaches m.dialogue (.ret (m.outcome, c₁)) →
      Calls c₁ calls c' → Calls c (m :: calls) c'

/-- Two clients make the same calls on all other notes, with the same questions, answers and
outcomes. -/
def SameElsewhere (path : String) (c c' : VaultClient) : Prop :=
  ∀ calls : List CallRecord, (∀ m ∈ calls, m.op.path ≠ path) →
    ((∃ after, Calls fromStr c calls after) ↔ ∃ after, Calls fromStr c' calls after)

end Calls

/-! ## Clients that differ in one copy -/

/-- The clients differ in nothing but their copy of the note. -/
structure AgreeOff (path : String) (c c' : VaultClient) : Prop where
  conn : c.conn = c'.conn
  offline : c.offline = c'.offline
  needsRevalidation : c.needsRevalidation = c'.needsRevalidation
  cache : ∀ p, p ≠ path → c.cache p = c'.cache p

section

variable {path p : String} {c c' : VaultClient}

theorem AgreeOff.refl (path : String) (c : VaultClient) : AgreeOff path c c :=
  ⟨rfl, rfl, rfl, fun _ _ => rfl⟩

theorem AgreeOff.symm (h : AgreeOff path c c') : AgreeOff path c' c :=
  ⟨h.conn.symm, h.offline.symm, h.needsRevalidation.symm, fun p hp => (h.cache p hp).symm⟩

theorem AgreeOff.markOffline (h : AgreeOff path c c') :
    AgreeOff path c.markOfflineOf c'.markOfflineOf :=
  ⟨rfl, rfl, h.needsRevalidation, h.cache⟩

theorem AgreeOff.connected (h : AgreeOff path c c') (conn : ConnId) :
    AgreeOff path (c.connected conn) (c'.connected conn) where
  conn := rfl
  offline := rfl
  needsRevalidation := by
    show (c.needsRevalidation || c.offline) = (c'.needsRevalidation || c'.offline)
    rw [h.needsRevalidation, h.offline]
  cache := h.cache

/-- What either learns of any note the other may learn too. -/
theorem AgreeOff.learned (h : AgreeOff path c c') (p : String) (k : CacheEntry) :
    AgreeOff path (Phase.learned c p k) (Phase.learned c' p k) where
  conn := h.conn
  offline := h.offline
  needsRevalidation := h.needsRevalidation
  cache := by
    intro q hq
    by_cases hqp : q = p
    · subst hqp
      exact (Cache.insert_same _ _ _).trans (Cache.insert_same _ _ _).symm
    · exact (Cache.insert_other _ _ hqp).trans ((h.cache q hq).trans (Cache.insert_other _ _ hqp).symm)

theorem AgreeOff.discarded (h : AgreeOff path c c') (p : String) :
    AgreeOff path (Phase.discarded c p) (Phase.discarded c' p) where
  conn := h.conn
  offline := h.offline
  needsRevalidation := h.needsRevalidation
  cache := by
    intro q hq
    by_cases hqp : q = p
    · subst hqp
      exact (Cache.remove_same _ _).trans (Cache.remove_same _ _).symm
    · exact (Cache.remove_other _ hqp).trans ((h.cache q hq).trans (Cache.remove_other _ hqp).symm)

theorem AgreeOff.cachedStale (h : AgreeOff path c c') (hp : p ≠ path) :
    c.cachedStale p = c'.cachedStale p := by
  unfold VaultClient.cachedStale
  rw [h.cache p hp]

/-- A copy of the note makes no difference elsewhere. -/
theorem agreeOff_learned (path : String) (c : VaultClient) (k : CacheEntry) :
    AgreeOff path c (Phase.learned (Phase.discarded c path) path k) where
  conn := rfl
  offline := rfl
  needsRevalidation := rfl
  cache := fun _ hp => ((Cache.insert_other _ _ hp).trans (Cache.remove_other _ hp)).symm

end

namespace Phase

/-- The phases are at the same place of a call on another note, and their clients agree. -/
inductive Agrees (path : String) : Phase → Phase → Prop
  | reconnecting {op : Op} {c c' : VaultClient} : op.path ≠ path → AgreeOff path c c' →
      Agrees path (.reconnecting op c) (.reconnecting op c')
  | dialing {why : Errand} {p : String} {c c' : VaultClient} : p ≠ path → AgreeOff path c c' →
      Agrees path (.dialing why p c) (.dialing why p c')
  | fetching {why : Errand} {p : String} {conn : ConnId} {c c' : VaultClient} : p ≠ path →
      AgreeOff path c c' → Agrees path (.fetching why p conn c) (.fetching why p conn c')
  | dialingWrite {p content : String} {expected : Option String} {c c' : VaultClient} : p ≠ path →
      AgreeOff path c c' →
      Agrees path (.dialingWrite p content expected c) (.dialingWrite p content expected c')
  | writing {p content : String} {expected : Option String} {conn : ConnId} {c c' : VaultClient} :
      p ≠ path → AgreeOff path c c' →
      Agrees path (.writing p content expected conn c) (.writing p content expected conn c')
  | done {outcome : Outcome} {c c' : VaultClient} : AgreeOff path c c' →
      Agrees path (.done outcome c) (.done outcome c')

section

variable {path p : String} {c c' : VaultClient}

theorem agrees_fetch (why : Errand) (hp : p ≠ path) (h : AgreeOff path c c') :
    Agrees path (fetch why p c) (fetch why p c') := by
  unfold fetch
  rw [← h.offline, ← h.conn]
  split
  · exact .fetching hp h
  · exact .dialing hp h

theorem agrees_submit (content : String) (hp : p ≠ path) (h : AgreeOff path c c') :
    Agrees path (submit p content c) (submit p content c') := by
  unfold submit send
  rw [← h.offline, ← h.conn, ← h.cache p hp]
  split
  · exact .done h
  · split
    · exact .writing hp h
    · exact .dialingWrite hp h

theorem agrees_readOffline (e : KnowledgeError) (hp : p ≠ path) (h : AgreeOff path c c') :
    Agrees path (readOffline p e c) (readOffline p e c') := by
  rw [readOffline_eq, readOffline_eq, h.cachedStale hp]
  exact .done h

theorem agrees_online {op : Op} (now : Instant) (hp : op.path ≠ path) (h : AgreeOff path c c') :
    Agrees path (online op now c) (online op now c') := by
  cases op with
  | read p =>
    unfold online
    dsimp only
    rw [← h.cache p hp]
    split
    · exact .done h
    · exact agrees_fetch .read hp h
  | write p content =>
    unfold online
    dsimp only
    rw [← h.needsRevalidation]
    split
    · exact agrees_fetch (.revalidate content) hp h
    · exact agrees_submit content hp h

theorem agrees_start {op : Op} (now : Instant) (hp : op.path ≠ path) (h : AgreeOff path c c') :
    Agrees path (start op c now) (start op c' now) := by
  unfold start
  rw [← h.offline]
  split
  · exact .reconnecting hp h
  · exact agrees_online now hp h

theorem agrees_reconnected {op : Op} (now : Instant) (hp : op.path ≠ path) (h : AgreeOff path c c')
    (answer : Except ConnectError ConnId) :
    Agrees path (reconnected op c now answer) (reconnected op c' now answer) := by
  cases answer with
  | ok conn => exact agrees_online now hp (h.connected conn)
  | error e =>
    cases op with
    | read p => exact agrees_readOffline .offline hp h.markOffline
    | write p content => exact .done h.markOffline

theorem agrees_fetched {why : Errand} (r : ReadResult) (hp : p ≠ path) (h : AgreeOff path c c') :
    Agrees path (fetched why r p c) (fetched why r p c') := by
  cases why with
  | read => exact .done h
  | revalidate content => exact agrees_submit content hp ⟨h.conn, h.offline, rfl, h.cache⟩
  | reread => exact .done h

theorem agrees_writeFailed (e : KnowledgeError) (h : AgreeOff path c c') :
    Agrees path (writeFailed e c) (writeFailed e c') := by
  rw [writeFailed_eq, writeFailed_eq]
  exact .done h.markOffline

theorem agrees_fetchFailed {why : Errand} (e : KnowledgeError) (hp : p ≠ path)
    (h : AgreeOff path c c') : Agrees path (fetchFailed why e p c) (fetchFailed why e p c') := by
  cases why with
  | read => exact agrees_readOffline e hp h.markOffline
  | revalidate content => exact .done h
  | reread => exact agrees_writeFailed e h

variable {fromStr : String → Except String Json}

theorem agrees_readAnswered (why : Errand) (now : Instant) (hp : p ≠ path) (h : AgreeOff path c c')
    (reply : ToolReply) : Agrees path (readAnswered fromStr why p c now reply)
      (readAnswered fromStr why p c' now reply) := by
  unfold readAnswered
  split
  · exact agrees_fetchFailed _ hp h
  · exact agrees_fetchFailed _ hp h
  · split
    · exact agrees_fetchFailed _ hp h
    · exact agrees_fetched _ hp (h.learned p _)

theorem agrees_writeAnswered (content : String) (now : Instant) (hp : p ≠ path)
    (h : AgreeOff path c c') (reply : ToolReply) :
    Agrees path (writeAnswered fromStr p content c now reply)
      (writeAnswered fromStr p content c' now reply) := by
  unfold writeAnswered
  split
  · exact agrees_writeFailed _ h
  · split
    · exact agrees_writeFailed _ h
    · split
      · split
        · exact agrees_fetch .reread hp (h.discarded p)
        · exact agrees_writeFailed _ h
      · split
        · exact agrees_writeFailed _ h
        · exact .done (h.learned p _)

/-- **Phases that agree ask the same**, and agree after every answer. -/
theorem Agrees.waiting {φ φ' : Phase} {q : Ask} {next : q.Answer → Phase} (h : Agrees path φ φ')
    (hv : φ.view fromStr = .waiting q next) :
    ∃ next', φ'.view fromStr = .waiting q next' ∧ ∀ a, Agrees path (next a) (next' a) := by
  cases h with
  | reconnecting hp h =>
    cases hv
    exact ⟨_, rfl, fun a => agrees_reconnected a.2 hp h a.1⟩
  | dialing hp h =>
    cases hv
    refine ⟨_, rfl, ?_⟩
    rintro ⟨e | conn, now⟩
    · exact agrees_fetchFailed _ hp h
    · exact .fetching hp (h.connected conn)
  | fetching hp h =>
    cases hv
    exact ⟨_, rfl, fun a => agrees_readAnswered _ a.2 hp h a.1⟩
  | dialingWrite hp h =>
    cases hv
    refine ⟨_, rfl, ?_⟩
    rintro ⟨e | conn, now⟩
    · exact agrees_writeFailed _ h
    · exact .writing hp (h.connected conn)
  | writing hp h =>
    cases hv
    exact ⟨_, rfl, fun a => agrees_writeAnswered _ a.2 hp h a.1⟩
  | done h => cases hv

theorem Agrees.done_eq {φ φ' : Phase} {r : Outcome × VaultClient} (h : Agrees path φ φ')
    (hv : φ.view fromStr = .done r) :
    ∃ r', φ'.view fromStr = .done r' ∧ r'.1 = r.1 ∧ AgreeOff path r.2 r'.2 := by
  cases h with
  | done h =>
    cases hv
    exact ⟨_, rfl, rfl, h⟩
  | _ => cases hv

end

end Phase

/-! ## Telling clients apart -/

section

variable {fromStr : String → Except String Json} {path : String} {c c' : VaultClient}

/-- Clients that agree make the same call on another note, and agree after it. -/
theorem AgreeOff.call (h : AgreeOff path c c') {op : Op} (hp : op.path ≠ path) {now : Instant}
    {d : Dialogue Ask Ask.Answer} {outcome : Outcome} {after : VaultClient}
    (hr : (op.program fromStr c now).Reaches d (.ret (outcome, after))) :
    ∃ after', (op.program fromStr c' now).Reaches d (.ret (outcome, after')) ∧
      AgreeOff path after after' := by
  obtain ⟨⟨outcome', after'⟩, hr', houtcome, hagree⟩ :=
    Follows.simulated (S := fun r r' => r'.1 = r.1 ∧ AgreeOff path r.2 r'.2)
      Phase.Agrees.done_eq Phase.Agrees.waiting hr (Phase.start_follows op c now)
      (Phase.start_follows op c' now) (Phase.agrees_start now hp h)
  cases houtcome
  exact ⟨after', hr', hagree⟩

theorem AgreeOff.calls (h : AgreeOff path c c') {calls : List CallRecord} {after : VaultClient}
    (hcalls : Calls fromStr c calls after) (hp : ∀ m ∈ calls, m.op.path ≠ path) :
    ∃ after', Calls fromStr c' calls after' := by
  induction hcalls generalizing c' with
  | nil c => exact ⟨c', .nil c'⟩
  | cons hr _ ih =>
    obtain ⟨hm, hrest⟩ := List.forall_mem_cons.mp hp
    obtain ⟨c₁, hr', h₁⟩ := h.call hm hr
    obtain ⟨after', hcalls'⟩ := ih h₁ hrest
    exact ⟨after', .cons hr' hcalls'⟩

/-- **Calls on other notes do not see the copy of a note.** -/
theorem sameElsewhere_of_agreeOff (h : AgreeOff path c c') : SameElsewhere fromStr path c c' := by
  intro calls hp
  constructor
  · rintro ⟨after, hcalls⟩
    exact h.calls hcalls hp
  · rintro ⟨after, hcalls⟩
    exact h.symm.calls hcalls hp

/-- A call to write another note tells a client that is bound to revalidate from one that is not. -/
theorem not_sameElsewhere_of_armed {conn conn' : ConnId} (hlive : c.Live conn) (hlive' : c'.Live conn')
    (harmed : c.needsRevalidation = true) (hfree : c'.needsRevalidation = false) :
    ¬ SameElsewhere fromStr path c c' := by
  intro hsame
  let p := path ++ "'"
  have hp : p ≠ path := by
    intro heq
    have hlength := congrArg String.length heq
    rw [String.length_append] at hlength
    exact absurd hlength (Nat.ne_of_gt (Nat.lt_succ_self _))
  let m : CallRecord := ⟨.write p "", 0, [⟨.callTool conn (.vaultRead p), (.error .timeout, 0)⟩],
    .write (.error (connErr .timeout))⟩
  -- the first client reads the note, and reports that the read has failed
  have hstart : Phase.start (.write p "") c 0 = .fetching (.revalidate "") p conn c := by
    simp only [Phase.start, Phase.online, hlive.2, harmed, Bool.false_eq_true, if_true, if_false,
      Phase.fetch_live _ _ hlive]
  have hf : Follows (Phase.view fromStr) (Phase.start (.write p "") c 0) _ := Phase.start_follows _ _ _
  rw [hstart] at hf
  obtain ⟨next, heq, hnext⟩ := hf.eq_ask rfl
  have hend := (hnext (.error .timeout, 0)).eq_ret rfl
  have hcalls : ∃ after, Calls fromStr c [m] after := by
    refine ⟨c, .cons ?_ (.nil c)⟩
    rw [heq]
    exact .ask (hend ▸ .here _)
  obtain ⟨after, hcalls'⟩ := (hsame [m] (List.forall_mem_singleton.mpr hp)).mp hcalls
  -- the second goes straight to its write, if it has a copy
  have hf' : Follows (Phase.view fromStr) (Phase.start (.write p "") c' 0) _ :=
    Phase.start_follows _ _ _
  have hstart' : Phase.start (.write p "") c' 0 = Phase.submit p "" c' := by
    simp only [Phase.start, Phase.online, hlive'.2, hfree, Bool.false_eq_true, if_false]
  rw [hstart'] at hf'
  cases hcalls' with
  | cons hr _ =>
    cases hk : c'.cache p with
    | none =>
      simp only [Phase.submit, hk] at hf'
      rw [hf'.eq_ret rfl] at hr
      cases hr
    | some k =>
      simp only [Phase.submit, hk, Phase.send_live _ _ _ hlive'] at hf'
      obtain ⟨next', heq', -⟩ := hf'.eq_ask rfl
      rw [heq'] at hr
      cases hr

end

end GooseClaw
