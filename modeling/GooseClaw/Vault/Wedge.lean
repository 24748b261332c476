import GooseClaw.Vault.Stability

/-!
# A client that only writes

A write that finds a dead connection while it revalidates leaves the client as it was, online and armed. So
a caller that only writes stays with the dead connection for ever (`Rig.run_wedged`), whatever becomes of
Alfred.
-/

namespace GooseClaw

open Found

/-! ## Writes alone -/

namespace Link

theorem kill_alive (link : Link) : link.kill.alive = false := by
  unfold kill
  split
  · rfl
  · next hdead => exact Bool.eq_false_iff.mpr hdead

theorem kill_sent (link : Link) : link.kill.conn.sent = link.conn.sent := by
  unfold kill
  split <;> rfl

end Link

namespace Rig

variable {serde : JsonSerde} {s s' : Rig} {k : ConnId}

/-- The client is online on a dead connection, and its next write must revalidate. -/
structure Wedged (s : Rig) (k : ConnId) : Prop where
  online : s.client.offline = false
  conn : s.client.conn = some k
  armed : s.client.needsRevalidation = true
  dead : ∃ link, s.links[k]? = some link ∧ link.alive = false

/-- A request on a dead connection is not written. -/
theorem request_dead {link : Link} (h : link.alive = false) (method : String) (params : Json) :
    ∃ link', link.request method params = (.error (.transport "broken pipe"), link') ∧
      link'.alive = false ∧ link'.conn.sent = link.conn.sent := by
  refine ⟨{ link with conn := { link.conn with nextId := link.conn.nextId + 1, writes := [] } }, ?_,
    h, rfl⟩
  simp only [Link.request, h]
  rfl

/-- What the writes of a wedged client have come to since `s`. -/
structure StillWedged (serde : JsonSerde) (k : ConnId) (s s' : Rig) : Prop where
  client : s'.client = s.client
  dead : ∃ link, s'.links[k]? = some link ∧ link.alive = false
  sent : s'.links.map (·.conn.sent) = s.links.map (·.conn.sent)
  returns : ∃ rets, s'.returns = s.returns ++ rets ∧ ∀ x ∈ rets, ∃ path content,
    x = (.write path content, .write (.error (.transport "broken pipe")))
  running : ∀ r, s'.running = some r → r.waiting = none ∧ ∃ path content,
    r.op = .write path content ∧ Follows (Phase.view serde.fromStr)
      (.fetching (.revalidate content) path k s.client) r.process

theorem StillWedged.step (hwedged : s.Wedged k) (h : StillWedged serde k s s') {s'' : Rig}
    {e : RigEvent} (hread : ∀ path, e ≠ .call (.read path)) (hs : s'.step serde e = some s'') :
    StillWedged serde k s s'' := by
  have helsewhere : ∀ {r : RigCall} {j : ConnId} {stage : Stage}, s'.running = some r →
      r.waiting ≠ some (j, stage) := by
    intro r j stage hrun hwait
    rw [(h.running r hrun).1] at hwait
    cases hwait
  have hset : ∀ {j : ConnId} {link link' : Link}, s'.links[j]? = some link →
      link'.conn.sent = link.conn.sent → (s'.links.set j link').map (·.conn.sent) =
        s.links.map (·.conn.sent) := by
    intro j link link' hlink hsent
    have hsame : s'.links.set j link = s'.links := by
      obtain ⟨hlt, rfl⟩ := List.getElem?_eq_some_iff.mp hlink
      exact List.set_getElem_self hlt
    calc (s'.links.set j link').map (·.conn.sent)
        = (s'.links.set j link).map (·.conn.sent) := by rw [List.map_set, List.map_set, hsent]
      _ = s'.links.map (·.conn.sent) := by rw [hsame]
      _ = s.links.map (·.conn.sent) := h.sent
  cases step_moves hs with
  | @call op hrun =>
    cases op with
    | read path => exact absurd rfl (hread path)
    | write path content =>
      have hf : Follows (Phase.view serde.fromStr)
          (Phase.start (.write path content) s'.client s'.time) _ := Phase.start_follows _ _ _
      have hstart : Phase.start (.write path content) s'.client s'.time =
          .fetching (.revalidate content) path k s.client := by
        simp only [h.client, Phase.start, Phase.online, Phase.fetch, hwedged.online, hwedged.armed,
          hwedged.conn, Bool.false_eq_true, if_true, if_false]
      rw [hstart] at hf
      rw [proceed_ask hf rfl]
      refine { h with running := ?_ }
      rintro r ⟨⟩
      exact ⟨rfl, path, content, rfl, hf⟩
  | @dial r next hrun hwait hv =>
    obtain ⟨-, path, content, -, hf⟩ := h.running r hrun
    obtain ⟨next', hp, -⟩ := hf.eq_ask rfl
    rw [hp] at hv
    cases hv
  | @send r j call link next hrun hwait hv hlink =>
    obtain ⟨-, path, content, hop, hf⟩ := h.running r hrun
    obtain ⟨next', hp, hnext⟩ := hf.eq_ask rfl
    rw [hp] at hv
    cases hv
    obtain ⟨link₁, hlink₁, hdead⟩ := h.dead
    cases hlink.symm.trans hlink₁
    obtain ⟨link', heq, hdead', hsent⟩ := request_dead hdead "tools/call"
      (ToolCall.vaultRead path).params
    rw [heq]
    -- the read fails, and the write returns with the client as it was
    have hdone : s'.written r k .tool (fun e => next' (.error e, s'.time))
          (.error (.transport "broken pipe"), link') =
        { s'.setLink k link' with
          client := s.client
          running := none
          returns := s'.returns ++ [(r.op, .write (.error (.transport "broken pipe")))] } :=
      proceed_done (hnext (.error (.transport "broken pipe"), s'.time)) _ _
    rw [hdone]
    obtain ⟨rets, hrets, hall⟩ := h.returns
    refine ⟨rfl, ⟨link', ?_, hdead'⟩, hset hlink hsent,
      ⟨rets ++ [(r.op, .write (.error (.transport "broken pipe")))], ?_, ?_⟩, ?_⟩
    · exact setLink_get hlink link'
    · rw [← List.append_assoc, ← hrets]
    · intro x hx
      rcases mem_snoc.mp hx with hold | rfl
      · exact hall x hold
      · exact ⟨path, content, by rw [hop]⟩
    · intro r' hr'
      cases hr'
  | probed hrun hwait => exact absurd hwait (helsewhere hrun)
  | initialized hrun hwait => exact absurd hwait (helsewhere hrun)
  | answered hrun hwait => exact absurd hwait (helsewhere hrun)
  | @serve j link msg hlink halive hmsg =>
    obtain ⟨link₁, hlink₁, hdead⟩ := h.dead
    refine ⟨h.client, ⟨link₁, ?_, hdead⟩, hset hlink rfl, h.returns, h.running⟩
    have hjk : j ≠ k := by
      rintro rfl
      cases hlink.symm.trans hlink₁
      rw [hdead] at halive
      cases halive
    show (s'.links.set j _)[k]? = some link₁
    rw [List.getElem?_set_ne hjk, hlink₁]
  | humanEdit => exact ⟨h.client, h.dead, h.sent, h.returns, h.running⟩
  | killAll =>
    obtain ⟨link₁, hlink₁, hdead⟩ := h.dead
    refine ⟨h.client, ⟨link₁.kill, ?_, ?_⟩, ?_, h.returns, h.running⟩
    · show (s'.links.map Link.kill)[k]? = some link₁.kill
      rw [List.getElem?_map, hlink₁]
      rfl
    · exact link₁.kill_alive
    · show (s'.links.map Link.kill).map _ = _
      rw [List.map_map, ← h.sent]
      exact List.map_congr_left fun link _ => link.kill_sent
  | restart => exact ⟨h.client, h.dead, h.sent, h.returns, h.running⟩
  | tick => exact ⟨h.client, h.dead, h.sent, h.returns, h.running⟩

/-- **Writes alone never find out.** A client that is online on a dead connection and must revalidate stays
so as long as its caller only writes, however long and however promptly Alfred is back: every write
fails as the first did, nothing is written on any connection, and none is dialled. -/
theorem run_wedged (hwedged : s.Wedged k) (hidle : s.running = none) {es : List RigEvent}
    (h : (machine serde).run s es = some s') (writes : ∀ path, .call (.read path) ∉ es) :
    s'.Wedged k ∧ s'.client = s.client ∧
      s'.links.map (·.conn.sent) = s.links.map (·.conn.sent) ∧
      ∃ rets, s'.returns = s.returns ++ rets ∧ ∀ x ∈ rets, ∃ path content,
        x = (.write path content, .write (.error (.transport "broken pipe"))) := by
  have hstill : StillWedged serde k s s' := by
    refine (machine serde).history (P := fun es s' => (∀ path, .call (.read path) ∉ es) →
      StillWedged serde k s s') ?_ ?_ h writes
    · intro _
      refine ⟨rfl, hwedged.dead, rfl, ⟨[], (List.append_nil _).symm, List.forall_mem_nil _⟩, ?_⟩
      intro r hrun
      rw [hidle] at hrun
      cases hrun
    · intro es s₁ e s₂ _ ih hstep hwrites
      refine (ih fun path hmem => hwrites path (List.mem_append_left _ hmem)).step hwedged ?_ hstep
      rintro path rfl
      exact hwrites path List.mem_concat_self
  refine ⟨⟨?_, ?_, ?_, hstill.dead⟩, hstill.client, hstill.sent, hstill.returns⟩
  · rw [hstill.client]
    exact hwedged.online
  · rw [hstill.client]
    exact hwedged.conn
  · rw [hstill.client]
    exact hwedged.armed

end Rig

namespace Sample

/-- A read finds an outage, and when Alfred is back a write reconnects and loses the connection again as it
revalidates. -/
def wedgingRun : List RigEvent :=
  outageRun ++ [.settle none, .call (.write "n" "a"), .dial, .serve 1, .settle none, .serve 1,
    .settle none, .killAll, .send, .restart]

/-- Two writes, an hour apart. -/
def onlyWrites : List RigEvent :=
  [.call (.write "n" "b"), .send, .tick (60 * CACHE_TTL), .call (.write "n" "c"), .send]

theorem wedgingRun_some : ∃ s s', (Rig.machine compactText).run Rig.new wedgingRun = some s ∧
    s.Wedged 1 ∧ s.running = none ∧ (Rig.machine compactText).run s onlyWrites = some s' ∧
    s'.returns.length = s.returns.length + 2 := by
  have h : ((Rig.machine compactText).run Rig.new wedgingRun).any (fun s =>
      s.client.offline = false ∧ s.client.conn = some 1 ∧ s.client.needsRevalidation = true ∧
        (s.links[1]?).any (fun link => !link.alive) = true ∧ s.running.isNone = true ∧
        ((Rig.machine compactText).run s onlyWrites).any fun s' =>
          s'.returns.length = s.returns.length + 2) = true := by
    decide +kernel
  obtain ⟨s, hrun, hs⟩ := (Option.any_eq_true _ _).mp h
  obtain ⟨hon, hconn, harmed, hlink, hidle, hrest⟩ := of_decide_eq_true hs
  obtain ⟨link, hlink, hdead⟩ := (Option.any_eq_true _ _).mp hlink
  obtain ⟨s', hrun', hs'⟩ := (Option.any_eq_true _ _).mp hrest
  have hdead : link.alive = false := by simpa using hdead
  exact ⟨s, s', hrun, ⟨hon, hconn, harmed, link, hlink, hdead⟩, Option.isNone_iff_eq_none.mp hidle,
    hrun', of_decide_eq_true hs'⟩

end Sample

/-- Two writes, an hour apart, from a client that a run has wedged. -/
theorem Rig.run_wedged_sample :
    ∃ s s', (machine compactText).run new Sample.wedgingRun = some s ∧ s.Wedged 1 ∧
      (machine compactText).run s Sample.onlyWrites = some s' ∧
      s'.returns.length = s.returns.length + 2 ∧
      s'.Wedged 1 ∧ s'.client = s.client ∧
      s'.links.map (·.conn.sent) = s.links.map (·.conn.sent) ∧
      ∃ rets, s'.returns = s.returns ++ rets ∧ ∀ x ∈ rets, ∃ path content,
        x = (.write path content, .write (.error (.transport "broken pipe"))) := by
  obtain ⟨s, s', hrun, hwedged, hidle, hrun', hlength⟩ := Sample.wedgingRun_some
  exact ⟨s, s', hrun, hwedged, hrun', hlength, run_wedged hwedged hidle hrun' (by simp [Sample.onlyWrites])⟩

end GooseClaw
