import GooseClaw.Vault.Tracking

/-!
# The rig refines the federation

The federation of `Vault.Federation` leaves the server free and takes its promises as assumptions. The rig
has a server, and connections with ids on the lines. Every run of the rig is a run of the federation in
which the server kept its promises (`Rig.run_refines`).
-/

namespace GooseClaw

open Found

namespace Rig

variable {serde : JsonSerde} {count : Nat} {s : Rig} {w : World} {g : Posted}


/-! ### The call in progress -/

section Step

variable {t : Federation (Program Ask Ask.Answer (Outcome × VaultClient))}

/-- A wait for a tool call goes on while its connection keeps its id. -/
theorem Awaits.of_links {r : RigCall} {links links' : List Link} {posts posts' : ConnId → List Post}
    {request : Option Nat} (h : r.Awaits links posts request)
    (hlinks : ∀ (k : ConnId) (link : Link), links[k]? = some link →
      ∃ link', links'[k]? = some link' ∧ link'.conn.nextId = link.conn.nextId)
    (hposts : ∀ k p, p ∈ posts k → p ∈ posts' k) : r.Awaits links' posts' request := by
  unfold RigCall.Awaits at h ⊢
  split at h
  · next k hwait =>
    obtain ⟨link, rid, call, next, hlink, hv, hrequest, hpost⟩ := h
    obtain ⟨link', hlink', hid⟩ := hlinks k link hlink
    exact ⟨link', rid, call, next, hlink', hv, hrequest, hposts k _ (hid ▸ hpost)⟩
  · exact h

/-- The call in progress is the same in the federation. -/
theorem Tracks.running_eq (h : s.Tracks serde count t g) {r : RigCall} (hrun : s.running = some r) :
    ∃ w request, t = ⟨w, some ⟨r.op, r.process, request⟩⟩ ∧ s.Shares serde count w g ∧
      r.Awaits s.links g.posts request := by
  obtain ⟨w, running⟩ := t
  obtain ⟨hshares, hrunning⟩ := h
  rw [hrun] at hrunning
  cases hrunning with
  | @some _ q hq =>
    obtain ⟨op, process, request⟩ := q
    obtain ⟨rfl, rfl, hawaits⟩ := hq
    exact ⟨w, request, rfl, hshares, hawaits⟩

/-- A step that leaves the client alone. -/
theorem Tracks.elsewhere {w' : World} {s' : Rig} {g' : Posted} (h : s.Tracks serde count t g)
    (hshares : s'.Shares serde (count + 1) w' g') (hrun : s'.running = s.running)
    (hlinks : ∀ (k : ConnId) (link : Link), s.links[k]? = some link →
      ∃ link', s'.links[k]? = some link' ∧ link'.conn.nextId = link.conn.nextId)
    (hposts : ∀ k p, p ∈ g.posts k → p ∈ g'.posts k) :
    s'.Tracks serde (count + 1) ⟨w', t.running⟩ g' := by
  refine ⟨hshares, ?_⟩
  have hrunning := h.running
  rw [hrun]
  generalize s.running = running at hrunning
  generalize t.running = running' at hrunning
  cases hrunning with
  | none => exact .none
  | some hq => exact .some ⟨hq.1, hq.2.1, Awaits.of_links hq.2.2 hlinks hposts⟩

/-- The federation can come along. -/
def Followed (serde : JsonSerde) (count : Nat)
    (t : Federation (Program Ask Ask.Answer (Outcome × VaultClient))) (s' : Rig) : Prop :=
  ∃ fs t' g', (Federation.machine serde.fromStr).run t fs = some t' ∧ s'.Tracks serde count t' g'

/-- By one step. -/
theorem Followed.of_step {e : Event} {t' : Federation (Program Ask Ask.Answer (Outcome × VaultClient))}
    {s' : Rig} {g' : Posted} (hstep : (Federation.machine serde.fromStr).step t e = some t')
    (h : s'.Tracks serde count t' g') : Followed serde count t s' :=
  ⟨[e], t', g', by simp only [Machine.run, hstep, Option.bind_some], h⟩

/-- By waiting. -/
theorem Followed.of_tracks {s' : Rig} {g' : Posted} (h : s'.Tracks serde count t g') :
    Followed serde count t s' := ⟨[], t, g', rfl, h⟩

/-- The factory and the handshake have answered. -/
theorem Followed.of_connected (h : s.Shares serde count w g) {r : RigCall}
    {next : Ask.Answer .connect → Program Ask Ask.Answer (Outcome × VaultClient)}
    (hv : r.process.view = .waiting .connect next) (answer : Except ConnectError ConnId) :
    Followed serde count ⟨w, some ⟨r.op, r.process, none⟩⟩
      (s.proceed r.op (next (answer, s.time))) := by
  refine .of_step (e := .connected answer) ?_ ((h.connected w.calls answer).proceed r.op _)
  simp only [Federation.machine, Federation.step, hv, h.time]

/-- The tool call was answered, or it failed. -/
theorem Followed.of_answered {reply : ToolReply} {request : Option Nat} {r : RigCall} {k : ConnId}
    {call : ToolCall} (htime : w.time = s.time)
    (h : s.Shares serde count (w.record (.answered w.calls request call reply w.time)) g)
    {next : Ask.Answer (.callTool k call) → Program Ask Ask.Answer (Outcome × VaultClient)}
    (hv : r.process.view = .waiting (.callTool k call) next)
    (hcan : Federation.canArrive request reply = true) :
    Followed serde count ⟨w, some ⟨r.op, r.process, request⟩⟩
      (s.proceed r.op (next (reply, s.time))) := by
  refine .of_step (e := .answer reply) ?_ (h.proceed r.op _)
  simp only [Federation.machine, Federation.step, hv, hcan, if_true, htime]

variable {s' : Rig} {r : RigCall} {k : ConnId} {link : Link}

/-- Nothing of the call is on the wire. -/
theorem Tracks.running_idle (h : s.Tracks serde count t g) (hrun : s.running = some r)
    (hwait : ∀ k, r.waiting ≠ some (k, .tool)) :
    ∃ w, t = ⟨w, some ⟨r.op, r.process, none⟩⟩ ∧ s.Shares serde count w g := by
  obtain ⟨w, request, rfl, hshares, hawaits⟩ := h.running_eq hrun
  unfold RigCall.Awaits at hawaits
  split at hawaits
  · next k hw => exact absurd hw (hwait k)
  · exact ⟨w, by rw [hawaits], hshares⟩

/-- A connection is dialled, or Alfred is down. -/
theorem Tracks.dial (h : s.Tracks serde count t g)
    {next : Ask.Answer .connect → Program Ask Ask.Answer (Outcome × VaultClient)}
    (hrun : s.running = some r) (hwait : r.waiting = none)
    (hv : r.process.view = .waiting .connect next) :
    Followed serde (count + 1) t (s.dial r next) := by
  obtain ⟨w, rfl, hshares⟩ := h.running_idle hrun (by simp [hwait])
  unfold Rig.dial
  split
  · exact .of_connected hshares.mono hv _
  · exact .of_tracks ⟨hshares.dialled r .probe, .some ⟨rfl, rfl, rfl⟩⟩

/-- The probe is over. -/
theorem Tracks.probed (hcount : count + 1 < UInt64.size) (h : s.Tracks serde count t g)
    {next : Ask.Answer .connect → Program Ask Ask.Answer (Outcome × VaultClient)}
    (hrun : s.running = some r) (hwait : r.waiting = some (k, .probe))
    (hv : r.process.view = .waiting .connect next) (hlink : s.links[k]? = some link)
    (deadline : Option Nat) :
    Followed serde (count + 1) t (s.written r k .handshake
      (fun e => next (.error (.handshake e), s.time))
      ((link.settle serde deadline).2.probed (link.settle serde deadline).1)) := by
  obtain ⟨w, rfl, hshares⟩ := h.running_idle hrun (by simp [hwait])
  have htracks := (hshares.links k link hlink).settle serde deadline
  generalize (link.settle serde deadline).2 = link' at htracks ⊢
  have hera : ({ link' with conn := { link'.conn with
      era := McpConnection.eraOf (link.settle serde deadline).1 } } : Link).Tracks w.journal w.inFlight
      count (g.posts k) := { htracks with }
  unfold Link.probed
  rcases hera.request hcount (p := .handshake (link'.conn.nextId + 1)) rfl rfl (by simp)
    (fun _ _ hlookup => hlookup) with ⟨e, link'', heq, hlink''⟩ | ⟨link'', heq, -, hlink''⟩
  · rw [heq]
    exact .of_connected (hshares.mono.setLink hlink'' (hshares.placed k)) hv _
  · rw [heq]
    refine .of_tracks ⟨{ hshares.mono.setLink hlink'' ?_ with }, .some ⟨rfl, rfl, rfl⟩⟩
    intro id rid call hmem
    rcases mem_snoc.mp hmem with hold | hnew
    · exact hshares.placed k id rid call hold
    · cases hnew

/-- The answer to `initialize` is looked at. -/
theorem Tracks.finish (h : s.Tracks serde count t g)
    {next : Ask.Answer .connect → Program Ask Ask.Answer (Outcome × VaultClient)}
    (hrun : s.running = some r) (hwait : r.waiting = some (k, .handshake))
    (hv : r.process.view = .waiting .connect next) (hlink : s.links[k]? = some link)
    (deadline : Option Nat) :
    Followed serde (count + 1) t
      (s.finish r k (link.settle serde deadline).2 next (link.settle serde deadline).1) := by
  obtain ⟨w, rfl, hshares⟩ := h.running_idle hrun (by simp [hwait])
  have hmono := hshares.mono
  have htracks := (hmono.links k link hlink).settle serde deadline
  generalize (link.settle serde deadline).2 = link' at htracks ⊢
  unfold Rig.finish
  split
  · exact .of_connected (hmono.setLink htracks (hshares.placed k)) hv _
  · next init _ =>
    have hdone : ∃ posts, (link'.initialized init).2.Tracks w.journal w.inFlight (count + 1) posts ∧
        ∀ id rid call, .tool id rid call ∈ posts → g.place rid = (k, id) ∧ rid < w.requests := by
      rcases htracks.initialized init with hsame | hnotice
      · exact ⟨_, hsame, hshares.placed k⟩
      · refine ⟨_, hnotice, ?_⟩
        intro id rid call hmem
        rcases mem_snoc.mp hmem with hold | hnew
        · exact hshares.placed k id rid call hold
        · cases hnew
    obtain ⟨posts, hlink'', hplaced⟩ := hdone
    have hset := hmono.setLink hlink'' hplaced
    split
    · next heq => exact .of_connected (by simpa [heq] using hset) hv _
    · next heq => exact .of_connected (by simpa [heq] using hset) hv _

/-- A tool call is written. -/
theorem Tracks.send (hcount : count + 1 < UInt64.size) (h : s.Tracks serde count t g)
    {call : ToolCall}
    {next : Ask.Answer (.callTool k call) → Program Ask Ask.Answer (Outcome × VaultClient)}
    (hrun : s.running = some r) (hwait : r.waiting = none)
    (hv : r.process.view = .waiting (.callTool k call) next) (hlink : s.links[k]? = some link) :
    Followed serde (count + 1) t (s.written r k .tool (fun e => next (.error e, s.time))
      (link.request "tools/call" call.params)) := by
  obtain ⟨w, rfl, hshares⟩ := h.running_idle hrun (by simp [hwait])
  have hflight : ∀ rid call', w.inFlight.lookup rid = some call' →
      (w.inFlight ++ [(w.requests, call)]).lookup rid = some call' := by
    intro rid call' hlookup
    rw [List.lookup_append, hlookup, Option.some_or]
  rcases (hshares.links k link hlink).request hcount
    (p := .tool (link.conn.nextId + 1) w.requests call) rfl rfl
    (by rintro _ _ _ ⟨⟩; exact hshares.lookup_new call) hflight with
    ⟨e, link', heq, hlink'⟩ | ⟨link', heq, hid, hlink'⟩
  · rw [heq]
    have hset := hshares.mono.setLink hlink' (hshares.placed k)
    refine .of_answered hset.time (hset.failed _ _ _ _ _) hv ?_
    rfl
  · rw [heq]
    have hsent := hshares.mono.sent k call (link.conn.nextId + 1)
    have hstep : (Federation.machine serde.fromStr).step ⟨w, some ⟨r.op, r.process, none⟩⟩ .send =
        some ⟨w.sent k call, some ⟨r.op, r.process, some w.requests⟩⟩ := by
      simp only [Federation.machine, Federation.step, hv]
    refine .of_step hstep
      ⟨{ hsent.setLink (hlink'.mono (fun _ he => List.mem_append_left _ he) (Nat.le_refl _)) ?_ with },
        .some ⟨rfl, rfl, ?_⟩⟩
    · intro id rid call' hmem
      rcases mem_snoc.mp hmem with hold | hnew
      · exact hsent.placed k id rid call' hold
      · cases hnew
        exact ⟨if_pos rfl, Nat.lt_succ_self _⟩
    · refine ⟨link', w.requests, call, next, ?_, hv, rfl, ?_⟩
      · show (s.links.set k link')[k]? = some link'
        rw [List.getElem?_set_self', hlink]
        rfl
      · rw [Posted.withPosts_same, hid]
        exact List.mem_concat_self

/-- The wait for a tool call is over. -/
theorem Tracks.settled (lawful : serde.Lawful) (h : s.Tracks serde count t g) {k' : ConnId}
    {call : ToolCall}
    {next : Ask.Answer (.callTool k' call) → Program Ask Ask.Answer (Outcome × VaultClient)}
    (hrun : s.running = some r) (hwait : r.waiting = some (k, .tool))
    (hv : r.process.view = .waiting (.callTool k' call) next) (hlink : s.links[k]? = some link)
    (deadline : Option Nat) :
    Followed serde (count + 1) t ((s.setLink k (link.settle serde deadline).2).proceed r.op
      (next ((link.settle serde deadline).1.map toolBody, s.time))) := by
  obtain ⟨w, request, rfl, hshares, hawaits⟩ := h.running_eq hrun
  unfold RigCall.Awaits at hawaits
  rw [hwait] at hawaits
  obtain ⟨link', rid, call', next', hlink', hv', rfl, hpost⟩ := hawaits
  cases hlink.symm.trans hlink'
  cases hv.symm.trans hv'
  have htracks := hshares.links k link hlink
  have hset := hshares.mono.setLink ((hshares.mono.links k link hlink).settle serde deadline)
    (hshares.placed k)
  rcases htracks.settle_cases lawful deadline with ⟨e, heq⟩ | ⟨p, hp, l, hanswered, hid, heq⟩
  · rw [heq]
    refine .of_answered hset.time (hset.failed _ _ _ _ _) hv ?_
    rfl
  · -- the line answers the post with the id waited for, and that is this call
    obtain rfl := htracks.post_unique hp hpost hid rfl
    obtain ⟨body, note, wrote, rfl, hserved⟩ := hanswered
    rw [heq, FakeVault.toolBody_response]
    refine .of_answered hset.time (hset.answered _ _ _ hserved) hv ?_
    rfl

/-- The server takes up a line. -/
theorem Tracks.serve (lawful : serde.Lawful) (hcount : count + 1 < UInt64.size)
    (h : s.Tracks serde count t g) {msg : Json} (hlink : s.links[k]? = some link)
    (hmsg : link.conn.sent[link.taken]? = some msg) :
    Followed serde (count + 1) t
      { s.setLink k (link.took (s.vault.handle serde.toString msg).1) with
        vault := (s.vault.handle serde.toString msg).2 } := by
  obtain ⟨w, running⟩ := t
  have hshares : s.Shares serde count w g := h.shares
  have htracks := hshares.links k link hlink
  obtain ⟨p, hp, rfl, -⟩ := htracks.post_of_sent hmsg
  have hlinks : ∀ response (j : ConnId) (link' : Link), s.links[j]? = some link' →
      ∃ link'', (s.links.set k (link.took response))[j]? = some link'' ∧
        link''.conn.nextId = link'.conn.nextId := by
    intro response j link' hlink'
    by_cases hjk : j = k
    · subst hjk
      cases hlink.symm.trans hlink'
      exact ⟨link.took response, by rw [List.getElem?_set_self', hlink]; rfl, rfl⟩
    · exact ⟨link', by rw [List.getElem?_set_ne (Ne.symm hjk), hlink'], rfl⟩
  -- a line that is no tool call is answered from nothing, and the federation waits
  have hquiet : ∀ response, (∀ l, response = some l → p.Answered w.journal l) →
      (∀ id rid call, p ≠ .tool id rid call) →
        Followed serde (count + 1) ⟨w, running⟩ (s.setLink k (link.took response)) := by
    intro response hanswer htool
    have htook : (link.took response).Tracks w.journal w.inFlight (count + 1) (g.posts k) := by
      refine (hshares.mono.links k link hlink).took hp ?_ hanswer
      intro id rid call hlater
      refine htracks.untaken id rid call ?_
      rw [← List.drop_drop] at hlater
      exact List.mem_of_mem_drop hlater
    refine .of_tracks (h.elsewhere (hshares.mono.setLink htook (hshares.placed k)) rfl
      (hlinks response) ?_)
    intro j q hq
    by_cases hjk : j = k
    · subst hjk
      rw [Posted.withPosts_same]
      exact hq
    · rw [Posted.withPosts_other g _ hjk]
      exact hq
  cases p with
  | discover id => exact hquiet _ (fun l hl => (Option.some.inj hl).symm) nofun
  | handshake id => exact hquiet _ (fun l hl => (Option.some.inj hl).symm) nofun
  | notice => exact hquiet none nofun nofun
  | tool id rid call =>
    obtain ⟨log, hserved⟩ := hshares.served lawful hcount hlink hp
    have hflight : w.inFlight.lookup rid = some call := by
      refine htracks.untaken id rid call ?_
      rw [← List.head?_drop] at hp
      exact List.mem_of_mem_head? hp
    rw [Post.message, FakeVault.handle_request]
    refine .of_step (e := .serve rid (.ok (s.vault.answer serde.toString call).1)
      ((s.vault.answer serde.toString call).2.map versionText)) ?_
      (h.elsewhere hserved rfl (hlinks _) fun _ _ hq => hq)
    simp only [Federation.machine, Federation.step, hflight]

/-- **Every step of the rig is followed in the federation.** -/
theorem Tracks.step (lawful : serde.Lawful) (hcount : count + 1 < UInt64.size)
    (h : s.Tracks serde count t g) {e : RigEvent} (hs : s.step serde e = some s') :
    Followed serde (count + 1) t s' := by
  have hsame : ∀ (j : ConnId) (link' : Link), s.links[j]? = some link' →
      ∃ link'', s.links[j]? = some link'' ∧ link''.conn.nextId = link'.conn.nextId :=
    fun j link' hlink' => ⟨link', hlink', rfl⟩
  cases step_moves hs with
  | @call op hrun =>
    obtain ⟨w, running⟩ := t
    have hshares : s.Shares serde count w g := h.shares
    have hrunning := h.running
    rw [hrun] at hrunning
    cases hrunning
    refine .of_step (e := .call op) ?_ ((hshares.mono.called op).proceed op _)
    simp only [Federation.machine, Federation.step, hshares.client, hshares.time]
  | dial hrun hwait hv => exact h.dial hrun hwait hv
  | send hrun hwait hv hlink => exact h.send hcount hrun hwait hv hlink
  | probed hrun hwait hv hlink => exact h.probed hcount hrun hwait hv hlink _
  | initialized hrun hwait hv hlink => exact h.finish hrun hwait hv hlink _
  | answered hrun hwait hv hlink => exact h.settled lawful hrun hwait hv hlink _
  | serve hlink _ hmsg => exact h.serve lawful hcount hlink hmsg
  | @humanEdit path content =>
    obtain ⟨note, hshares⟩ := h.shares.humanEdit hcount path content
    exact .of_step (e := .edit path note) rfl (h.elsewhere hshares rfl hsame fun _ _ hp => hp)
  | killAll =>
    refine .of_tracks (h.elsewhere { h.shares.mono with links := ?_ } rfl ?_ fun _ _ hp => hp)
    · intro j link' hlink'
      change (s.links.map Link.kill)[j]? = some link' at hlink'
      rw [List.getElem?_map] at hlink'
      obtain ⟨link'', hlink'', rfl⟩ := Option.map_eq_some_iff.mp hlink'
      exact (h.shares.mono.links j link'' hlink'').kill
    · intro j link' hlink'
      refine ⟨link'.kill, by rw [List.getElem?_map, hlink']; rfl, ?_⟩
      unfold Link.kill
      split <;> rfl
  | restart => exact .of_tracks (h.elsewhere { h.shares.mono with } rfl hsame fun _ _ hp => hp)
  | @tick d =>
    refine .of_step (e := .tick d) rfl
      (h.elsewhere { h.shares.mono with time := ?_ } rfl hsame fun _ _ hp => hp)
    show t.world.time + d = s.time + d
    rw [h.shares.time]

end Step

end Rig

end GooseClaw
