import GooseClaw.Vault.Wedge

/-!
# No state is lost

From every state of every run the client gets to a note in a few steps (`Rig.run_recovers`): the call in
progress is cut short by stopping Alfred, and over the first connection after that the note is read as it is
and written. No one has to edit the vault for it, and nothing else in the vault changes.

The steps are put together from two exchanges, a handshake on a new connection (`Rig.connects`) and a tool
call on a connection that holds nothing back (`Rig.exchanges`).
-/

namespace GooseClaw

open Found

namespace Link

/-- The server has taken up all that was written, and the client has read all that was answered. -/
structure Drained (link : Link) : Prop where
  alive : link.alive = true
  unread : link.conn.unread = []
  taken : link.taken = link.conn.sent.length

/-- A request that is written on a connection that is drained. -/
def posted (link : Link) (m : Json) : Link :=
  { link with conn := { link.conn with
      nextId := link.conn.nextId + 1
      writes := []
      sent := link.conn.sent ++ [m] } }

/-- The request is taken up, and its answer read. -/
def exchanged (link : Link) (m : Json) : Link := { link.posted m with taken := link.taken + 1 }

section

variable {link : Link}

theorem request_posted (h : link.alive = true) (method : String) (params : Json) :
    link.request method params =
      (.ok (), link.posted (requestMessage (link.conn.nextId + 1) method params)) := by
  obtain ⟨conn, taken, alive⟩ := link
  obtain rfl : alive = true := h
  rfl

theorem Drained.exchanged (h : link.Drained) (m : Json) : (link.exchanged m).Drained where
  alive := h.alive
  unread := h.unread
  taken := by
    show link.taken + 1 = (link.conn.sent ++ [m]).length
    rw [h.taken, List.length_append]
    rfl

/-- A wait on the one line there is, which carries the id. -/
theorem settle_line {serde : JsonSerde} (lawful : serde.Lawful) {l : Json} (hl : l.Canonical)
    (hunread : link.conn.unread = [.line l]) (hid : messageId l = some link.conn.nextId) :
    link.settle serde none =
      (answer l, { link with conn := { link.conn with unread := [] } }) := by
  rw [settle_eq]
  have hfirst : McpConnection.FirstAnswer serde.fromStr serde.toString link.conn.nextId
      (link.stream none) l l [] :=
    ⟨[], hunread, List.forall_mem_nil _, content_canonical lawful hl, hid⟩
  rw [McpConnection.awaitAnswer_first hfirst]

/-- A wait on the answer to the last request, when nothing else is there. -/
theorem settle_took {serde : JsonSerde} (lawful : serde.Lawful) {result : Json}
    (hresult : result.Canonical) (hunread : link.conn.unread = []) :
    (link.took (some (FakeVault.resultMessage (idNumber link.conn.nextId) result))).settle serde none =
      (.ok result, { link with taken := link.taken + 1 }) := by
  have hline : (link.took (some (FakeVault.resultMessage (idNumber link.conn.nextId) result))).conn.unread =
      [.line (FakeVault.resultMessage (idNumber link.conn.nextId) result)] := by
    show link.conn.unread ++ [.line _] = _
    rw [hunread]
    rfl
  rw [settle_line lawful (FakeVault.canonical_resultMessage _ hresult) hline
    (FakeVault.messageId_resultMessage _ _)]
  simp only [Link.took, FakeVault.answer_resultMessage, ← hunread]

end

/-- A connection whose probe was answered and whose handshake was written. -/
def shaking : Link where
  conn :=
    { unread := []
      writes := []
      sent := [(Post.discover 1).message, (Post.handshake 2).message]
      nextId := 2
      era := McpConnection.eraOf (.ok FakeVault.discoverResult)
      negotiatedVersion := "" }
  taken := 1
  alive := true

/-- The connection when the handshake was answered and the notification written. -/
def shaken : Link where
  conn :=
    { unread := []
      writes := []
      sent := [(Post.discover 1).message, (Post.handshake 2).message, Post.notice.message]
      nextId := 2
      era := McpConnection.eraOf (.ok FakeVault.discoverResult)
      negotiatedVersion := LEGACY_VERSION }
  taken := 2
  alive := true

theorem initialized_dead {link link' : Link} (h : link.alive = false) {init : Json}
    {outcome : Except McpError Unit} (heq : link.initialized init = (outcome, link')) :
    link'.alive = false := by
  have halive : (link.initialized init).2.alive = link.alive := rfl
  rw [heq] at halive
  exact halive.trans h

theorem drained_shaken : (shaken.took none).Drained := ⟨rfl, rfl, rfl⟩

end Link

namespace Rig

variable {serde : JsonSerde} {s s' : Rig}

/-! ## Steps -/

/-- What is described is a step. -/
theorem step_of_moves {e : RigEvent} (h : Moves serde s e s') : s.step serde e = some s' := by
  cases h with
  | call hrun => simp only [step, hrun]
  | dial hrun hwait hv => simp only [step, hrun, Option.bind_eq_bind, Option.bind_some, hwait, hv]
  | send hrun hwait hv hlink =>
    simp only [step, hrun, Option.bind_eq_bind, Option.bind_some, hwait, hv, hlink]
  | probed hrun hwait hv hlink =>
    simp only [step, hrun, Option.bind_eq_bind, Option.bind_some, hwait, hlink, settled, hv]
  | initialized hrun hwait hv hlink =>
    simp only [step, hrun, Option.bind_eq_bind, Option.bind_some, hwait, hlink, settled, hv]
  | answered hrun hwait hv hlink =>
    simp only [step, hrun, Option.bind_eq_bind, Option.bind_some, hwait, hlink, settled, hv]
  | serve hlink halive hmsg =>
    simp only [step, hlink, Option.bind_eq_bind, Option.bind_some, halive, if_true, hmsg]
  | humanEdit => rfl
  | killAll => rfl
  | restart => rfl
  | tick => rfl

theorem run_cons {e : RigEvent} {es : List RigEvent} {s₁ : Rig} (h : Moves serde s e s₁)
    (hrest : (machine serde).run s₁ es = some s') : (machine serde).run s (e :: es) = some s' := by
  have hstep : (machine serde).step s e = some s₁ := step_of_moves h
  rw [Machine.run, hstep]
  exact hrest

/-- What a call was waiting for does not matter when it goes on. -/
theorem proceed_running (s : Rig) (running : Option RigCall) (op : Op)
    (p : Program Ask Ask.Answer (Outcome × VaultClient)) :
    ({ s with running } : Rig).proceed op p = s.proceed op p := by
  unfold proceed
  split <;> rfl

/-- What happens to the vault and the connections does not matter to the call. -/
theorem proceed_elsewhere (s : Rig) (vault : FakeVault) (links : List Link) (op : Op)
    (p : Program Ask Ask.Answer (Outcome × VaultClient)) :
    ({ s.proceed op p with vault, links } : Rig) = ({ s with vault, links } : Rig).proceed op p := by
  unfold proceed
  split <;> rfl

/-! ## Exchanges -/

/-- **A tool call is served** over a connection that is drained, and leaves it so. -/
theorem exchanges (lawful : serde.Lawful) {op : Op}
    {p : Program Ask Ask.Answer (Outcome × VaultClient)} (hrun : s.running = some ⟨op, p, none⟩)
    {φ : Phase} (hf : Follows (Phase.view serde.fromStr) φ p) {k : ConnId} {call : ToolCall}
    {next : Ask.Answer (.callTool k call) → Phase}
    (hφ : φ.view serde.fromStr = .waiting (.callTool k call) next)
    {link : Link} (hlink : s.links[k]? = some link) (h : link.Drained) :
    ∃ link' p', link'.Drained ∧
      Follows (Phase.view serde.fromStr)
        (next (.ok (s.vault.answer serde.toString call).1, s.time)) p' ∧
      (machine serde).run s [.send, .serve k, .settle none] =
        some (({ s with
          links := s.links.set k link'
          vault := s.vault.after serde.toString call } : Rig).proceed op p') := by
  obtain ⟨next', rfl, hnext⟩ := hf.eq_ask hφ
  let m := requestMessage (link.conn.nextId + 1) "tools/call" call.params
  let l := FakeVault.response (link.conn.nextId + 1) (s.vault.answer serde.toString call).1
  let r : RigCall := ⟨op, .ask (.callTool k call) next', some (k, .tool)⟩
  have hget : ∀ link' : Link, (s.links.set k link')[k]? = some link' := setLink_get hlink
  have hsend : Moves serde s .send
      { s with links := s.links.set k (link.posted m), running := some r } := by
    have hmoves : Moves serde s .send _ := .send hrun rfl rfl hlink
    rw [Link.request_posted h.alive] at hmoves
    exact hmoves
  have hserve : Moves serde { s with links := s.links.set k (link.posted m), running := some r }
      (.serve k) { s with
        links := s.links.set k ((link.posted m).took (some l))
        running := some r
        vault := s.vault.after serde.toString call } := by
    have hsent : (link.posted m).conn.sent[(link.posted m).taken]? = some m := by
      show (link.conn.sent ++ [m])[link.taken]? = some m
      rw [h.taken]
      exact List.getElem?_concat_length
    have hmoves : Moves serde { s with links := s.links.set k (link.posted m), running := some r }
        (.serve k) _ := .serve (hget (link.posted m)) h.alive hsent
    rw [FakeVault.handle_request, setLink, List.set_set] at hmoves
    exact hmoves
  have hsettle : ((link.posted m).took (some l)).settle serde none =
      (answer l, link.exchanged m) := by
    have hunread : ((link.posted m).took (some l)).conn.unread = [.line l] := by
      show link.conn.unread ++ [.line l] = _
      rw [h.unread]
      rfl
    rw [Link.settle_line lawful (FakeVault.canonical_response _ _) hunread
      (FakeVault.messageId_resultMessage _ _)]
    simp only [Link.took, Link.exchanged, Link.posted, h.unread]
    rfl
  refine ⟨link.exchanged m, _, h.exchanged m, hnext _, run_cons hsend (run_cons hserve ?_)⟩
  refine run_cons (.answered rfl rfl rfl (hget _)) (congrArg some ?_)
  rw [hsettle, FakeVault.toolBody_response, setLink, List.set_set]
  exact proceed_running { s with
    links := s.links.set k (link.exchanged m)
    vault := s.vault.after serde.toString call } (some r) op _

theorem set_concat {α : Type} (l : List α) (a b : α) : (l ++ [a]).set l.length b = l ++ [b] := by
  rw [List.set_append_right _ _ (Nat.le_refl _), Nat.sub_self]
  rfl

/-- The rig with one connection more. -/
def withLink (s : Rig) (link : Link) (running : Option RigCall) : Rig :=
  { s with links := s.links ++ [link], running }

theorem withLink_get (s : Rig) (link : Link) (running : Option RigCall) :
    (s.withLink link running).links[s.links.length]? = some link := List.getElem?_concat_length

theorem withLink_setLink (s : Rig) (link link' : Link) (running : Option RigCall) :
    (s.withLink link running).setLink s.links.length link' = s.withLink link' running := by
  unfold setLink withLink
  rw [set_concat]

/-- The server takes up a line of the last connection, and the vault stays as it is. -/
theorem moves_serve {link : Link} {running : Option RigCall} (halive : link.alive = true) {m : Json}
    (hsent : link.conn.sent[link.taken]? = some m) {response : Option Json}
    (hhandle : s.vault.handle serde.toString m = (response, s.vault)) :
    Moves serde (s.withLink link running) (.serve s.links.length)
      (s.withLink (link.took response) running) := by
  have hmoves : Moves serde _ _ _ := .serve (s.withLink_get link running) halive hsent
  rw [withLink_setLink, show (s.withLink link running).vault = s.vault from rfl, hhandle] at hmoves
  exact hmoves

/-- **A connection is made** while Alfred is up, and it is drained. -/
theorem connects (lawful : serde.Lawful) {op : Op}
    {p : Program Ask Ask.Answer (Outcome × VaultClient)} (hrun : s.running = some ⟨op, p, none⟩)
    {φ : Phase} (hf : Follows (Phase.view serde.fromStr) φ p) {next' : Ask.Answer .connect → Phase}
    (hφ : φ.view serde.fromStr = .waiting .connect next') (hup : s.down = false) :
    ∃ p', Follows (Phase.view serde.fromStr) (next' (.ok s.links.length, s.time)) p' ∧
      (machine serde).run s [.dial, .serve s.links.length, .settle none, .serve s.links.length,
          .settle none, .serve s.links.length] =
        some (({ s with links := s.links ++ [Link.shaken.took none] } : Rig).proceed op p') := by
  obtain ⟨next, rfl, hnext⟩ := hf.eq_ask hφ
  refine ⟨next (.ok s.links.length, s.time), hnext _, ?_⟩
  let probing : Option RigCall := some ⟨op, .ask .connect next, some (s.links.length, .probe)⟩
  let shaking : Option RigCall := some ⟨op, .ask .connect next, some (s.links.length, .handshake)⟩
  let discovered := FakeVault.resultMessage (idNumber 1) FakeVault.discoverResult
  let welcomed := FakeVault.resultMessage (idNumber 2) FakeVault.initializeResult
  have hdial : Moves serde s .dial (s.withLink Link.dialled probing) := by
    have hmoves : Moves serde s .dial (s.dial ⟨op, .ask .connect next, none⟩ next) := .dial hrun rfl rfl
    have hdown : ¬ s.down = true := by
      rw [hup]
      exact Bool.false_ne_true
    rw [dial, if_neg hdown] at hmoves
    exact hmoves
  have hprobed : Moves serde (s.withLink (Link.dialled.took (some discovered)) probing)
      (.settle none) (s.withLink Link.shaking shaking) := by
    have hmoves : Moves serde (s.withLink (Link.dialled.took (some discovered)) probing)
      (.settle none) _ := .probed rfl rfl rfl (s.withLink_get _ _)
    have hsettle : (Link.dialled.took (some discovered)).settle serde none =
        (.ok FakeVault.discoverResult, { Link.dialled with taken := 1 }) :=
      Link.settle_took lawful FakeVault.canonical_discoverResult rfl
    rw [hsettle] at hmoves
    change Moves serde _ _ (((s.withLink (Link.dialled.took (some discovered)) probing).setLink
      s.links.length Link.shaking).await ⟨op, .ask .connect next, _⟩ s.links.length .handshake) at hmoves
    rw [withLink_setLink] at hmoves
    exact hmoves
  have hfinish : Moves serde (s.withLink (Link.shaking.took (some welcomed)) shaking)
      (.settle none) ((s.withLink Link.shaken none).proceed op
        (next (.ok s.links.length, s.time))) := by
    have hmoves : Moves serde (s.withLink (Link.shaking.took (some welcomed)) shaking)
      (.settle none) _ := .initialized rfl rfl rfl (s.withLink_get _ _)
    have hsettle : (Link.shaking.took (some welcomed)).settle serde none =
        (.ok FakeVault.initializeResult, { Link.shaking with taken := 2 }) :=
      Link.settle_took lawful FakeVault.canonical_initializeResult rfl
    rw [hsettle] at hmoves
    change Moves serde _ _ (((s.withLink (Link.shaking.took (some welcomed)) shaking).setLink
      s.links.length Link.shaken).proceed op (next (.ok s.links.length, s.time))) at hmoves
    rw [withLink_setLink, withLink, proceed_running] at hmoves
    exact (proceed_running { s with links := s.links ++ [Link.shaken] } none op _).symm ▸ hmoves
  have hnotice : Moves serde ((s.withLink Link.shaken none).proceed op
        (next (.ok s.links.length, s.time))) (.serve s.links.length)
      ((s.withLink (Link.shaken.took none) none).proceed op
        (next (.ok s.links.length, s.time))) := by
    have hlink : ((s.withLink Link.shaken none).proceed op
        (next (.ok s.links.length, s.time))).links[s.links.length]? = some Link.shaken := by
      rw [proceed_links]
      exact s.withLink_get _ _
    have hmoves : Moves serde _ (.serve s.links.length) _ := .serve hlink rfl rfl
    rw [proceed_vault, Post.message, FakeVault.handle_notification, setLink, proceed_links]
      at hmoves
    have hset := set_concat s.links Link.shaken (Link.shaken.took none)
    rw [show (s.withLink Link.shaken none).links = s.links ++ [Link.shaken] from rfl, hset] at hmoves
    exact (proceed_elsewhere (s.withLink Link.shaken none) s.vault
      (s.links ++ [Link.shaken.took none]) op _) ▸ hmoves
  refine run_cons hdial (run_cons (moves_serve rfl rfl (FakeVault.handle_discover ..)) ?_)
  refine run_cons hprobed (run_cons (moves_serve rfl rfl (FakeVault.handle_initialize ..)) ?_)
  refine run_cons hfinish (run_cons hnotice (congrArg some ?_))
  exact proceed_running { s with links := s.links ++ [Link.shaken.took none] } none op _

/-! ## A note is read and written -/

/-- The client holds no connection. -/
def Unconnected (c : VaultClient) : Prop := c.offline = true ∨ c.conn = none

/-- The client is between two calls and online, over a connection that is drained. -/
structure Ready (s : Rig) (k : ConnId) : Prop where
  idle : s.running = none
  online : s.client.offline = false
  conn : s.client.conn = some k
  drained : ∃ link, s.links[k]? = some link ∧ link.Drained

/-- What a client that holds no connection asks for first, and where it is then. -/
theorem start_unconnected (fromStr : String → Except String Json) {c : VaultClient}
    (h : Unconnected c) {path : String} {now : Instant}
    (hstale : (c.cache path).filter (CacheEntry.fresh now) = none) :
    ∃ next, (Phase.start (.read path) c now).view fromStr = .waiting .connect next ∧
      ∀ k, next (.ok k, now) = .fetching .read path k (c.connected k) := by
  have honline : ∀ k, Phase.online (.read path) now (c.connected k) =
      .fetching .read path k (c.connected k) := by
    intro k
    have hcache : ((c.connected k).cache path).filter (CacheEntry.fresh now) = none := hstale
    simp only [Phase.online, hcache]
    rfl
  cases hoff : c.offline with
  | true =>
    refine ⟨_, by simp only [Phase.start, hoff, if_true]; rfl, honline⟩
  | false =>
    have hconn : c.conn = none := by
      rcases h with h | h
      · rw [hoff] at h
        cases h
      · exact h
    have hdialing : Phase.start (.read path) c now = .dialing .read path c := by
      simp only [Phase.start, hoff, Phase.online, hstale, Phase.fetch, hconn, Bool.false_eq_true,
        if_false]
    rw [hdialing]
    exact ⟨_, rfl, fun _ => rfl⟩

/-- **A client without a connection reads a note as it is.** -/
theorem reads (lawful : serde.Lawful) (hidle : s.running = none) (hup : s.down = false)
    (hclient : Unconnected s.client) {path content : String} {n : UInt64}
    (hnote : s.vault.notes path = some (content, n))
    (hstale : (s.client.cache path).filter (CacheEntry.fresh s.time) = none) :
    ∃ s', (machine serde).run s [.call (.read path), .dial, .serve s.links.length, .settle none,
        .serve s.links.length, .settle none, .serve s.links.length, .send, .serve s.links.length,
        .settle none] = some s' ∧
      s'.Ready s.links.length ∧ s'.vault.notes = s.vault.notes ∧
      s'.client.cache path = some ⟨content, some (versionText n), s.time⟩ ∧
      s'.returns = s.returns ++
        [(.read path, .read (.ok ⟨path, content, some (versionText n), false⟩))] := by
  let k := s.links.length
  let c := s.client.connected k
  obtain ⟨next, hview, hnext⟩ := start_unconnected serde.fromStr hclient hstale
  have hstart : Follows (Phase.view serde.fromStr) (Phase.start (.read path) s.client s.time) _ :=
    Phase.start_follows _ _ _
  -- the call dials, and fetches the note over the new connection
  have hcall : Moves serde s (.call (.read path)) _ := .call hidle
  rw [proceed_ask hstart hview] at hcall
  obtain ⟨p, hfetching, hconnects⟩ := connects
    (s := { s with running := some ⟨.read path, _, none⟩ }) lawful rfl hstart hview hup
  rw [hnext k] at hfetching
  rw [proceed_ask hfetching rfl] at hconnects
  obtain ⟨link', p', hdrained, hdone, hexchanges⟩ := exchanges
    (s := { s with links := s.links ++ [Link.shaken.took none], running := some ⟨.read path, p, none⟩ })
    lawful rfl hfetching rfl List.getElem?_concat_length Link.drained_shaken
  dsimp only at hdone
  rw [Phase.readAnswered_answer lawful .read c s.time hnote] at hdone
  rw [proceed_done hdone] at hexchanges
  refine ⟨_, run_cons hcall ((machine serde).run_append_some.mpr ⟨_, hconnects, hexchanges⟩), ?_⟩
  refine ⟨⟨rfl, rfl, rfl, link', ?_, hdrained⟩, rfl, Cache.insert_same _ _ _, rfl⟩
  show ((s.links ++ [Link.shaken.took none]).set k link')[k]? = some link'
  rw [set_concat]
  exact List.getElem?_concat_length

/-- A write with the note's version is applied, and the call returns. -/
theorem writes_sent (lawful : serde.Lawful) {op : Op}
    {p : Program Ask Ask.Answer (Outcome × VaultClient)} (hrun : s.running = some ⟨op, p, none⟩)
    {path content content' : String} {n : UInt64} {k : ConnId} {c : VaultClient}
    (hf : Follows (Phase.view serde.fromStr) (.writing path content' (some (versionText n)) k c) p)
    {link : Link} (hlink : s.links[k]? = some link) (h : link.Drained)
    (hnote : s.vault.notes path = some (content, n)) :
    ∃ s', (machine serde).run s [.send, .serve k, .settle none] = some s' ∧ s'.running = none ∧
      s'.vault.notes = (fun q => if q = path then some (content', n + 1) else s.vault.notes q) ∧
      s'.returns = s.returns ++ [(op, .write (.ok (.written (versionText (n + 1)))))] := by
  have hcurrent : (s.vault.notes path).map (fun e => versionText e.2) = some (versionText n) := by
    rw [hnote]
    rfl
  obtain ⟨link', p', -, hdone, hexchanges⟩ := exchanges lawful hrun hf rfl hlink h
  dsimp only at hdone
  rw [Phase.writeAnswered_written lawful c s.time hcurrent, hnote] at hdone
  rw [proceed_done hdone] at hexchanges
  refine ⟨_, hexchanges, rfl, ?_, rfl⟩
  simp only [FakeVault.after, FakeVault.answer, hnote, Option.map_some, if_true, Option.getD_some]

/-- **A client that is ready writes a note it has read.** -/
theorem writes (lawful : serde.Lawful) {k : ConnId} (h : s.Ready k) {path content : String}
    {n : UInt64} (hnote : s.vault.notes path = some (content, n)) {e : CacheEntry}
    (hcache : s.client.cache path = some e) (hversion : e.version = some (versionText n))
    (content' : String) :
    ∃ es s', es.length ≤ 7 ∧ (∀ x ∈ es, x = .call (.write path content') ∨ x = .send ∨
        x = .serve k ∨ x = .settle none) ∧
      (machine serde).run s es = some s' ∧ s'.running = none ∧
      s'.vault.notes = (fun q => if q = path then some (content', n + 1) else s.vault.notes q) ∧
      s'.returns = s.returns ++
        [(.write path content', .write (.ok (.written (versionText (n + 1)))))] := by
  obtain ⟨link, hlink, hdrained⟩ := h.drained
  have hstart : Follows (Phase.view serde.fromStr)
      (Phase.start (.write path content') s.client s.time) _ := Phase.start_follows _ _ _
  have hcall : Moves serde s (.call (.write path content')) _ := .call h.idle
  cases harmed : s.client.needsRevalidation with
  | false =>
    have hphase : Phase.start (.write path content') s.client s.time =
        .writing path content' (some (versionText n)) k s.client := by
      simp only [Phase.start, Phase.online, Phase.submit, Phase.send, h.online, harmed, hcache, hversion,
        h.conn, Bool.false_eq_true, if_false]
    rw [hphase] at hstart
    rw [proceed_ask hstart rfl] at hcall
    obtain ⟨s', hrun, hrest⟩ := writes_sent (s := { s with running := some ⟨_, _, none⟩ }) lawful rfl
      hstart hlink hdrained hnote
    exact ⟨_, s', by simp, by simp, run_cons hcall hrun, hrest⟩
  | true =>
    have hphase : Phase.start (.write path content') s.client s.time =
        .fetching (.revalidate content') path k s.client := by
      simp only [Phase.start, Phase.online, Phase.fetch, h.online, harmed, h.conn, Bool.false_eq_true,
        if_true, if_false]
    rw [hphase] at hstart
    rw [proceed_ask hstart rfl] at hcall
    obtain ⟨link', p, hdrained', hf, hexchanges⟩ := exchanges
      (s := { s with running := some ⟨_, _, none⟩ }) lawful rfl hstart rfl hlink hdrained
    dsimp only at hf
    rw [Phase.readAnswered_answer lawful _ s.client s.time hnote] at hf
    -- the copy that the write offers is the one its own read has brought
    have hwriting : Phase.fetched (.revalidate content') ⟨path, content, some (versionText n), false⟩
        path (Phase.learned s.client path ⟨content, some (versionText n), s.time⟩) =
        .writing path content' (some (versionText n)) k
          { Phase.learned s.client path ⟨content, some (versionText n), s.time⟩ with
            needsRevalidation := false } := by
      simp only [Phase.fetched, Phase.submit, Phase.learned, Cache.insert_same, Phase.send, h.online,
        h.conn]
    rw [hwriting] at hf
    rw [proceed_ask hf rfl] at hexchanges
    have hlink' : (s.links.set k link')[k]? = some link' := setLink_get hlink link'
    obtain ⟨s', hrun, hrest⟩ := writes_sent (s := { s with
      links := s.links.set k link'
      vault := s.vault.after serde.toString (.vaultRead path)
      running := some ⟨_, _, none⟩ }) lawful rfl hf hlink' hdrained' hnote
    exact ⟨_, s', by simp, by simp, run_cons hcall ((machine serde).run_append_some.mpr
      ⟨_, hexchanges, hrun⟩), hrest⟩

/-! ## A call is cut short -/

/-- Alfred is down, and so is every connection. -/
structure Stopped (s : Rig) : Prop where
  down : s.down = true
  dead : ∀ link ∈ s.links, link.alive = false

theorem Stopped.get (h : s.Stopped) {k : ConnId} {link : Link} (hlink : s.links[k]? = some link) :
    link.alive = false := h.dead link (List.mem_of_getElem? hlink)

theorem stopped_killAll (s : Rig) : ({ s with down := true, links := s.links.map Link.kill } : Rig).Stopped where
  down := rfl
  dead := by
    intro link hlink
    obtain ⟨link', -, rfl⟩ := List.mem_map.mp hlink
    exact link'.kill_alive

theorem Stopped.setLink (h : s.Stopped) {k : ConnId} {link : Link} (hdead : link.alive = false) :
    (s.setLink k link).Stopped where
  down := h.down
  dead := by
    intro link' hlink'
    rcases List.mem_or_eq_of_mem_set hlink' with hold | rfl
    · exact h.dead link' hold
    · exact hdead

theorem Stopped.proceed (h : s.Stopped) (op : Op)
    (p : Program Ask Ask.Answer (Outcome × VaultClient)) : (s.proceed op p).Stopped where
  down := (proceed_down s op p).trans h.down
  dead := by
    rw [proceed_links]
    exact h.dead

/-- A read from the cache ends the call. -/
theorem readOffline_done (path : String) (e : KnowledgeError) (c : VaultClient) :
    ∃ outcome, Phase.readOffline path e c = .done outcome c := by
  unfold Phase.readOffline
  split <;> exact ⟨_, rfl⟩

theorem fetchFailed_done (why : Errand) (e : KnowledgeError) (path : String) (c : VaultClient) :
    ∃ outcome c', Phase.fetchFailed why e path c = .done outcome c' := by
  cases why with
  | read =>
    obtain ⟨outcome, h⟩ := readOffline_done path e c.markOfflineOf
    exact ⟨outcome, _, h⟩
  | revalidate content => exact ⟨_, _, rfl⟩
  | reread => cases e <;> exact ⟨_, _, rfl⟩

theorem writeFailed_done (e : KnowledgeError) (c : VaultClient) :
    ∃ outcome c', Phase.writeFailed e c = .done outcome c' := by
  cases e <;> exact ⟨_, _, rfl⟩

/-- A call that is refused a connection ends. -/
theorem refused_done {fromStr : String → Except String Json} {φ : Phase}
    {next : Ask.Answer .connect → Phase} (hφ : φ.view fromStr = .waiting .connect next)
    (e : ConnectError) (now : Instant) :
    ∃ outcome c, next (.error e, now) = .done outcome c := by
  cases φ with
  | reconnecting op c =>
    cases hφ
    cases op with
    | read path =>
      obtain ⟨outcome, h⟩ := readOffline_done path .offline c.markOfflineOf
      exact ⟨outcome, _, h⟩
    | write path content => exact ⟨_, _, rfl⟩
  | dialing why path c =>
    cases hφ
    exact fetchFailed_done why _ path c
  | dialingWrite path content expected c =>
    cases hφ
    exact writeFailed_done _ c
  | _ => cases hφ

/-- A call whose tool call fails ends. -/
theorem failed_done {fromStr : String → Except String Json} {φ : Phase} {k : ConnId}
    {call : ToolCall} {next : Ask.Answer (.callTool k call) → Phase}
    (hφ : φ.view fromStr = .waiting (.callTool k call) next) (e : McpError) (now : Instant) :
    ∃ outcome c, next (.error e, now) = .done outcome c := by
  cases φ with
  | fetching why path conn c =>
    cases hφ
    exact fetchFailed_done why _ path c
  | writing path content expected conn c =>
    cases hφ
    exact writeFailed_done _ c
  | _ => cases hφ

/-- **A call that waits for nothing yet fails at once** when Alfred is stopped. -/
theorem cut_asking (hstopped : s.Stopped) (h : s.Linked serde) {r : RigCall}
    (hrun : s.running = some r) (hwait : r.waiting = none) :
    ∃ e s', (e = .dial ∨ e = .send) ∧ Moves serde s e s' ∧ s'.Stopped ∧ s'.vault = s.vault ∧
      s'.running = none := by
  obtain ⟨q, next, hv⟩ := h.asks r hrun
  obtain ⟨φ, next', hat, hφ, hnext⟩ := h.calls.next hrun hv
  cases q with
  | connect =>
    have hmoves : Moves serde s .dial _ := .dial hrun hwait hv
    obtain ⟨outcome, c, hdone⟩ := refused_done hφ (.factory "alfred is down") s.time
    have hfollows := hnext (.error (.factory "alfred is down"), s.time)
    rw [hdone] at hfollows
    rw [dial, if_pos hstopped.down] at hmoves
    refine ⟨.dial, _, .inl rfl, hmoves, hstopped.proceed _ _, proceed_vault .., ?_⟩
    rw [proceed_done hfollows]
  | callTool k call =>
    have hk := Phase.at_callTool hat hφ
    have hlink : s.links[k]? = some (s.links.get ⟨k, hk⟩) := List.getElem?_eq_getElem hk
    have hmoves : Moves serde s .send _ := .send hrun hwait hv hlink
    obtain ⟨link', heq, hdead, -⟩ := request_dead (hstopped.get hlink) "tools/call" call.params
    obtain ⟨outcome, c, hdone⟩ := failed_done hφ (.transport "broken pipe") s.time
    have hfollows := hnext (.error (.transport "broken pipe"), s.time)
    rw [hdone] at hfollows
    rw [heq, written] at hmoves
    refine ⟨.send, _, .inr rfl, hmoves, (hstopped.setLink hdead).proceed _ _, proceed_vault .., ?_⟩
    rw [proceed_done hfollows]

/-- **A call that waits is answered or fails**, and waits for nothing after that. -/
theorem cut_waiting (hstopped : s.Stopped) (h : s.Linked serde) {r : RigCall}
    (hrun : s.running = some r) {w : ConnId × Stage} (hwait : r.waiting = some w) :
    ∃ s', Moves serde s (.settle none) s' ∧ s'.Stopped ∧ s'.vault = s.vault ∧
      ∀ r', s'.running = some r' → r'.waiting = none := by
  obtain ⟨k, stage⟩ := w
  obtain ⟨hk, hfits⟩ := h.waiting r hrun _ hwait
  have hlink : s.links[k]? = some s.links[k] := List.getElem?_eq_getElem hk
  have hdead : ((s.links[k]).settle serde none).2.alive = false := by
    rw [Link.settle_eq]
    show s.links[k].alive = false
    exact hstopped.get hlink
  obtain ⟨q, next, hv⟩ := h.asks r hrun
  rw [hv] at hfits
  have hgo : ∀ (link' : Link) (p : Program Ask Ask.Answer (Outcome × VaultClient)),
      link'.alive = false → Moves serde s (.settle none) ((s.setLink k link').proceed r.op p) →
      ∃ s', Moves serde s (.settle none) s' ∧ s'.Stopped ∧ s'.vault = s.vault ∧
        ∀ r', s'.running = some r' → r'.waiting = none :=
    fun link' p hdead hmoves => ⟨_, hmoves, (hstopped.setLink hdead).proceed _ _, proceed_vault ..,
      fun _ => proceed_waiting⟩
  cases stage with
  | probe =>
    cases q with
    | callTool k' call => exact hfits.elim
    | connect =>
      have hmoves : Moves serde s (.settle none) _ := .probed hrun hwait hv hlink
      let discovered : Link := { ((s.links[k]).settle serde none).2 with
        conn := { ((s.links[k]).settle serde none).2.conn with
          era := McpConnection.eraOf ((s.links[k]).settle serde none).1 } }
      have hdiscovered : discovered.alive = false := hdead
      obtain ⟨link', heq, hdead', -⟩ :=
        request_dead hdiscovered "initialize" McpConnection.initializeParams
      rw [Link.probed, heq, written] at hmoves
      exact hgo _ _ hdead' hmoves
  | handshake =>
    cases q with
    | callTool k' call => exact hfits.elim
    | connect =>
      have hmoves : Moves serde s (.settle none) _ := .initialized hrun hwait hv hlink
      cases hreply : ((s.links[k]).settle serde none).1 with
      | error e =>
        rw [hreply] at hmoves
        exact hgo _ _ hdead hmoves
      | ok init =>
        rw [hreply] at hmoves
        unfold finish at hmoves
        dsimp only at hmoves
        split at hmoves
        · next e link' hinit => exact hgo link' _ (Link.initialized_dead hdead hinit) hmoves
        · next link' hinit => exact hgo link' _ (Link.initialized_dead hdead hinit) hmoves
  | tool =>
    cases q with
    | connect => exact hfits.elim
    | callTool k' call =>
      have hmoves : Moves serde s (.settle none) _ := .answered hrun hwait hv hlink
      exact hgo _ _ hdead hmoves

/-! ## The way back -/

/-- A step that only the caller of the note takes, or the server, or whoever stops and starts it. -/
def Concerns (path content : String) : RigEvent → Prop
  | .call op => op = .read path ∨ op = .write path content
  | .humanEdit _ _ => False
  | _ => True

/-- In at most `n` such steps the rig gets to `s'`, and the vault stays as it is. -/
structure Leads (serde : JsonSerde) (path content : String) (n : Nat) (s s' : Rig) : Prop where
  run : ∃ es, es.length ≤ n ∧ (∀ e ∈ es, Concerns path content e) ∧ (machine serde).run s es = some s'
  vault : s'.vault = s.vault
  returns : s.returns <+: s'.returns
  linked : s'.Linked serde

section

variable {path content : String} {n : Nat}

theorem Leads.refl (h : s.Linked serde) : Leads serde path content 0 s s where
  run := ⟨[], Nat.le_refl _, List.forall_mem_nil _, rfl⟩
  vault := rfl
  returns := List.prefix_rfl
  linked := h

theorem Leads.mono (h : Leads serde path content n s s') {m : Nat} (hle : n ≤ m) :
    Leads serde path content m s s' where
  run := by
    obtain ⟨es, hlen, hrest⟩ := h.run
    exact ⟨es, Nat.le_trans hlen hle, hrest⟩
  vault := h.vault
  returns := h.returns
  linked := h.linked

theorem Leads.step (lawful : serde.Lawful) (h : Leads serde path content n s s') {e : RigEvent}
    {s'' : Rig} (hs : Moves serde s' e s'') (he : Concerns path content e)
    (hvault : s''.vault = s'.vault) : Leads serde path content (n + 1) s s'' := by
  obtain ⟨hlinked, new, hgives⟩ := linked_step lawful h.linked (step_of_moves hs)
  obtain ⟨es, hlen, hconcerns, hrun⟩ := h.run
  refine ⟨⟨es ++ [e], ?_, ?_, (machine serde).run_append_some.mpr ⟨s', hrun, run_cons hs rfl⟩⟩,
    hvault.trans h.vault, ?_, hlinked⟩
  · rw [List.length_append]
    exact Nat.add_le_add_right hlen 1
  · intro x hx
    rcases mem_snoc.mp hx with hold | rfl
    · exact hconcerns x hold
    · exact he
  · rw [hgives.returns]
    exact h.returns.trans (List.prefix_append _ _)

/-- A call that waits for nothing yet is over after one more step. -/
theorem Leads.cut (lawful : serde.Lawful) (h : Leads serde path content n s s')
    (hstopped : s'.Stopped) (hwait : ∀ r, s'.running = some r → r.waiting = none) :
    ∃ s'', Leads serde path content (n + 1) s s'' ∧ s''.Stopped ∧ s''.running = none := by
  cases hrun : s'.running with
  | none => exact ⟨s', h.mono (Nat.le_succ n), hstopped, hrun⟩
  | some r =>
    obtain ⟨e, s'', he, hmoves, hstopped', hvault, hidle⟩ :=
      cut_asking hstopped h.linked hrun (hwait r hrun)
    refine ⟨s'', h.step lawful hmoves ?_ hvault, hstopped', hidle⟩
    rcases he with rfl | rfl <;> trivial

/-- **Alfred is stopped, and no call is in progress.** -/
theorem stops (lawful : serde.Lawful) (h : s.Linked serde) :
    ∃ s', Leads serde path content 3 s s' ∧ s'.Stopped ∧ s'.running = none := by
  have hkill : Leads serde path content 1 s { s with down := true, links := s.links.map Link.kill } :=
    (Leads.refl h).step lawful .killAll trivial rfl
  have hstopped := stopped_killAll s
  by_cases hwait : ∀ r, s.running = some r → r.waiting = none
  · obtain ⟨s', hleads, hrest⟩ := hkill.cut lawful hstopped hwait
    exact ⟨s', hleads.mono (Nat.le_succ 2), hrest⟩
  · obtain ⟨r, hrun, w, hwait⟩ : ∃ r, s.running = some r ∧ ∃ w, r.waiting = some w := by
      simpa only [not_forall, ← ne_eq, Option.ne_none_iff_exists', exists_prop] using hwait
    obtain ⟨s₁, hmoves, hstopped₁, hvault, hwait₁⟩ := cut_waiting hstopped hkill.linked hrun hwait
    exact (hkill.step lawful hmoves trivial hvault).cut lawful hstopped₁ hwait₁

/-- **A client that is online on a dead connection finds out with a read.** -/
theorem finds_out (lawful : serde.Lawful) (h : Leads serde path content n s s')
    (hidle : s'.running = none) (hon : s'.client.offline = false) {k : ConnId}
    (hconn : s'.client.conn = some k) (hdead : ∀ link ∈ s'.links, link.alive = false)
    (hstale : (s'.client.cache path).filter (CacheEntry.fresh s'.time) = none) :
    ∃ s'', Leads serde path content (n + 2) s s'' ∧ s''.running = none ∧ s''.down = s'.down ∧
      s''.client = s'.client.markOfflineOf ∧ s''.time = s'.time := by
  have hstart : Follows (Phase.view serde.fromStr) (Phase.start (.read path) s'.client s'.time) _ :=
    Phase.start_follows _ _ _
  have hphase : Phase.start (.read path) s'.client s'.time = .fetching .read path k s'.client := by
    simp only [Phase.start, Phase.online, Phase.fetch, hon, hconn, hstale, Bool.false_eq_true, if_false]
  rw [hphase] at hstart
  obtain ⟨next, hp, hnext⟩ := hstart.eq_ask rfl
  have hcall : Moves serde s' (.call (.read path)) _ := .call hidle
  rw [proceed_ask hstart rfl] at hcall
  -- the read is written on the dead connection
  have hk : k < s'.links.length := h.linked.calls.idle hidle hon k hconn
  have hlink := List.getElem?_eq_getElem hk
  obtain ⟨link', heq, -, -⟩ := request_dead (hdead _ (List.getElem_mem hk)) "tools/call"
    (ToolCall.vaultRead path).params
  rw [hp] at hcall
  have hsend : Moves serde { s' with running := some ⟨.read path, .ask _ next, none⟩ } .send _ :=
    .send rfl rfl rfl hlink
  rw [heq, written] at hsend
  have hfollows := hnext (.error (.transport "broken pipe"), s'.time)
  obtain ⟨outcome, hdone⟩ := readOffline_done path
    (VaultClient.connErr (.transport "broken pipe")) s'.client.markOfflineOf
  rw [show Phase.readAnswered serde.fromStr .read path s'.client s'.time
    (.error (.transport "broken pipe")) = .done outcome s'.client.markOfflineOf from hdone] at hfollows
  rw [proceed_done hfollows] at hsend
  exact ⟨_, (h.step lawful hcall (.inl rfl) rfl).step lawful hsend trivial rfl, rfl, rfl, rfl, rfl⟩

/-- No copy is fresh when enough time has passed. -/
theorem goes_stale (o : Option CacheEntry) (now : Instant) :
    ∃ d, o.filter (CacheEntry.fresh (now + d)) = none := by
  cases o with
  | none => exact ⟨0, rfl⟩
  | some e =>
    refine ⟨e.fetchedAt + CACHE_TTL, ?_⟩
    have hold : e.fresh (now + (e.fetchedAt + CACHE_TTL)) = false := by
      refine Bool.eq_false_iff.mpr ?_
      intro hfresh
      exact Nat.not_lt.mpr (Nat.le_add_left _ _) (CacheEntry.lt_of_fresh hfresh)
    rw [Option.filter_some, hold]
    rfl

/-- **Alfred is back, and the client holds neither a connection nor a fresh copy.** -/
theorem disconnects (lawful : serde.Lawful) (h : Leads serde path content n s s')
    (hstopped : s'.Stopped) (hidle : s'.running = none) :
    ∃ s'', Leads serde path content (n + 4) s s'' ∧ s''.running = none ∧ s''.down = false ∧
      Unconnected s''.client ∧
      (s''.client.cache path).filter (CacheEntry.fresh s''.time) = none := by
  obtain ⟨d, hstale⟩ := goes_stale (s'.client.cache path) s'.time
  have hup : Leads serde path content (n + 2) s { s' with down := false, time := s'.time + d } :=
    (h.step lawful .restart trivial rfl).step lawful .tick trivial rfl
  by_cases hclient : Unconnected s'.client
  · exact ⟨_, hup.mono (by omega), hidle, rfl, hclient, hstale⟩
  · obtain ⟨hoff, hconn⟩ := not_or.mp hclient
    obtain ⟨k, hconn⟩ := Option.ne_none_iff_exists'.mp hconn
    obtain ⟨s'', hleads, hidle, hdown, hclient, htime⟩ :=
      finds_out lawful hup hidle (Bool.eq_false_iff.mpr hoff) hconn hstopped.dead hstale
    refine ⟨s'', hleads, hidle, hdown, ?_, ?_⟩
    · rw [hclient]
      exact .inl rfl
    · rw [hclient, htime]
      exact hstale

end

/-- **No state is lost.** From every state of every run, whatever call is in progress and whatever has
become of the connections, at most 24 steps bring the client to read a note that is there as it is, and to
write it: no one edits the vault, and nothing but the note changes. -/
theorem run_recovers (lawful : serde.Lawful) {tr : List RigEvent}
    (h : (machine serde).run new tr = some s) {path content : String} {n : UInt64}
    (hnote : s.vault.notes path = some (content, n)) (content' : String) :
    ∃ es s' rets, es.length ≤ 24 ∧ (∀ e ∈ es, Concerns path content' e) ∧
      (machine serde).run s es = some s' ∧ s'.running = none ∧
      s'.vault.notes = (fun q => if q = path then some (content', n + 1) else s.vault.notes q) ∧
      s'.returns = s.returns ++ rets ++
        [(.read path, .read (.ok ⟨path, content, some (versionText n), false⟩)),
          (.write path content', .write (.ok (.written (versionText (n + 1)))))] := by
  obtain ⟨s₁, hstops, hstopped, hidle⟩ : ∃ s₁, Leads serde path content' 3 s s₁ ∧ s₁.Stopped ∧
    s₁.running = none := stops lawful (run_linked lawful h)
  obtain ⟨s₂, hleads, hidle, hup, hclient, hstale⟩ := disconnects lawful hstops hstopped hidle
  have hnote₂ : s₂.vault.notes path = some (content, n) := hleads.vault ▸ hnote
  obtain ⟨s₃, hread, hready, hnotes, hcache, hreturns⟩ := reads lawful hidle hup hclient hnote₂ hstale
  obtain ⟨es, s₄, hlen, hes, hwrite, hdone, hnotes', hreturns'⟩ :=
    writes lawful hready (hnotes ▸ hnote₂) hcache rfl content'
  obtain ⟨es₀, hlen₀, hes₀, hrun₀⟩ := hleads.run
  obtain ⟨rets, hrets⟩ := hleads.returns
  have hrun := (machine serde).run_append_some.mpr
    ⟨s₂, hrun₀, (machine serde).run_append_some.mpr ⟨s₃, hread, hwrite⟩⟩
  refine ⟨_, s₄, rets, ?_, ?_, hrun, hdone, ?_, ?_⟩
  · simp only [List.length_append, List.length_cons, List.length_nil]
    omega
  · intro e he
    rcases List.mem_append.mp he with he | he
    · exact hes₀ e he
    rcases List.mem_append.mp he with he | he
    · simp only [List.mem_cons, List.not_mem_nil, or_false] at he
      rcases he with rfl | rfl | rfl | rfl | rfl | rfl | rfl | rfl | rfl | rfl <;>
        first | trivial | exact .inl rfl
    · rcases hes e he with rfl | rfl | rfl | rfl <;> first | trivial | exact .inr rfl
  · rw [hnotes', hnotes, hleads.vault]
  · rw [hreturns', hreturns, ← hrets]
    simp only [List.append_assoc, List.cons_append, List.nil_append]

end Rig

/-- Alfred goes down and comes back while a read is connecting, and the client gets to the note. -/
theorem Rig.run_recovers_sample :
    ∃ s es s' rets, (machine compactText).run new Sample.outageRun = some s ∧ es.length ≤ 24 ∧
      (∀ e ∈ es, Concerns "n" "b" e) ∧ (machine compactText).run s es = some s' ∧
      s'.running = none ∧
      s'.vault.notes = (fun q => if q = "n" then some ("b", 1 + 1) else s.vault.notes q) ∧
      s'.returns = s.returns ++ rets ++
        [(.read "n", .read (.ok ⟨"n", "a", some (versionText 1), false⟩)),
          (.write "n" "b", .write (.ok (.written (versionText (1 + 1)))))] := by
  have h : ((machine compactText).run new Sample.outageRun).any (fun s =>
      s.vault.notes "n" = some ("a", 1)) = true := by
    decide +kernel
  obtain ⟨s, hrun, hs⟩ := (Option.any_eq_true _ _).mp h
  obtain ⟨es, s', rets, hrest⟩ := run_recovers compactText_lawful hrun (of_decide_eq_true hs) "b"
  exact ⟨s, es, s', rets, hrun, hrest⟩

end GooseClaw
