import GooseClaw.Vault.Calls
import GooseClaw.Vault.EndToEnd

/-!
# What an outage leaves behind

Once the surroundings are prompt again, a client that has noticed the outage is as good as new
(`Rig.run_stabilizes`): from the first call that reports it on, every call on a note that is there is served,
whatever the outage left in the streams, in the cache and on the wire.

A healthy rig is one whose client holds nothing but clean connections (`Rig.Healthy`). Prompt surroundings
keep it so, and a client that has gone offline holds none.

**What it does not establish.** That a read gives the note as it is now: a copy is good for its time, and
what versions the calls give is a matter of `Vault.Guarantees`. Nor that a write is accepted: it may meet a
conflict, and a write to a note the client holds no copy of is told to read it first.
-/

namespace GooseClaw

open Found

/-- The post is one the stage waits for an answer to. -/
def Stage.Expects (view : View Ask Ask.Answer (Outcome × VaultClient)
    (Program Ask Ask.Answer (Outcome × VaultClient))) : Stage → Post → Prop
  | .probe, _ => True
  | .handshake, p => ∃ id, p = .handshake id
  | .tool, p => ∃ k call next id rid, view = .waiting (.callTool k call) next ∧ p = .tool id rid call

namespace Rig

variable {serde : JsonSerde} {paths : String → Prop} {s s' : Rig}

/-! ## Prompt surroundings -/

/-- Alfred stays up, and a wait on a task that runs ends when everything that was written has been taken
up. -/
def Prompt (s : Rig) : RigEvent → Prop
  | .settle deadline => deadline = none ∧ ∀ r ∈ s.running, ∀ w ∈ r.waiting,
      ∀ link ∈ s.links[w.1]?, link.alive = true → link.taken = link.conn.sent.length
  | .killAll => False
  | _ => True

instance (s : Rig) (e : RigEvent) : Decidable (s.Prompt e) :=
  match e with
  | .settle deadline => inferInstanceAs (Decidable (deadline = none ∧ ∀ r ∈ s.running,
      ∀ w ∈ r.waiting, ∀ link ∈ s.links[w.1]?, link.alive = true →
        link.taken = link.conn.sent.length))
  | .killAll => isFalse id
  | .call _ => isTrue trivial
  | .dial => isTrue trivial
  | .send => isTrue trivial
  | .serve _ => isTrue trivial
  | .humanEdit _ _ => isTrue trivial
  | .restart => isTrue trivial
  | .tick _ => isTrue trivial

/-- The connection is there, and it is clean. -/
def CleanAt (s : Rig) (k : ConnId) : Prop := ∃ link, s.links[k]? = some link ∧ link.Clean

/-- A rig whose client will be served: Alfred is up, and what the client holds and waits for is clean. -/
structure Healthy (serde : JsonSerde) (paths : String → Prop) (s : Rig) : Prop where
  up : s.down = false
  holds : s.vault.Holds paths
  calls : s.Calls serde s.CleanAt
  waiting : ∀ r, s.running = some r → ∀ w ∈ r.waiting, ∃ link p, s.links[w.1]? = some link ∧
    link.Clean ∧ link.Awaits serde (FakeVault.Holds paths) p ∧ w.2.Expects r.process.view p

/-- A client that knows it is offline needs nothing of the past. -/
theorem healthy_of_offline (hup : s.down = false) (hholds : s.vault.Holds paths)
    (hrun : s.running = none) (hoff : s.client.offline = true) : s.Healthy serde paths where
  up := hup
  holds := hholds
  calls :=
    { idle := fun _ => Phase.over_of_offline hoff
      busy := by
        rw [hrun]
        nofun }
  waiting := by
    rw [hrun]
    nofun

theorem cleanAt_setLink {k : ConnId} {link : Link} (hlink : link.Clean) {j : ConnId}
    (h : s.CleanAt j) : (s.setLink k link).CleanAt j := by
  obtain ⟨link', hlink', hclean⟩ := h
  unfold CleanAt setLink
  by_cases hjk : k = j
  · subst hjk
    exact ⟨link, setLink_get hlink' link, hlink⟩
  · refine ⟨link', ?_, hclean⟩
    rw [List.getElem?_set_ne hjk, hlink']

/-- Between two answers nothing is waited for. -/
theorem healthy_proceed {op : Op} {p : Program Ask Ask.Answer (Outcome × VaultClient)}
    (hup : s.down = false) (hholds : s.vault.Holds paths)
    (h : (s.proceed op p).Calls serde s.CleanAt) : (s.proceed op p).Healthy serde paths where
  up := (proceed_down s op p).trans hup
  holds := by
    rw [proceed_vault]
    exact hholds
  calls := by
    have hsame : (s.proceed op p).CleanAt = s.CleanAt := by
      unfold CleanAt
      rw [proceed_links]
    rw [hsame]
    exact h
  waiting := by
    intro r hr w hw
    rw [proceed_waiting hr] at hw
    cases hw

/-- The call waits for a post on a clean connection. -/
theorem healthy_await (h : s.Healthy serde paths) {r : RigCall} (hrun : s.running = some r)
    {links : List Link} (hmono : ∀ j, s.CleanAt j → ({ s with links } : Rig).CleanAt j) {k : ConnId}
    {link : Link} (hlink : links[k]? = some link) (hclean : link.Clean) {p : Post}
    (hawaits : link.Awaits serde (FakeVault.Holds paths) p) {stage : Stage}
    (hexpects : stage.Expects r.process.view p) :
    (({ s with links } : Rig).await r k stage).Healthy serde paths where
  up := h.up
  holds := h.holds
  calls := ((h.calls.await hrun { s with links } k stage)).mono hmono rfl rfl
  waiting := by
    rintro r' ⟨⟩ w ⟨⟩
    exact ⟨link, p, hlink, hclean, hawaits, hexpects⟩

/-- The call goes on with what it asked for. -/
theorem Healthy.granted (lawful : serde.Lawful) (h : s.Healthy serde paths) {r : RigCall}
    (hrun : s.running = some r) {q : Ask}
    {next : q.Answer → Program Ask Ask.Answer (Outcome × VaultClient)}
    (hv : r.process.view = .waiting q next) {k : ConnId} {link : Link} (hclean : link.Clean)
    {a : q.Answer} (hpermits : q.Permits (s.setLink k link).CleanAt a.1)
    (hgranted : q.Granted serde (FakeVault.Holds paths) a.1) :
    ((s.setLink k link).proceed r.op (next a)).Healthy serde paths ∧
      ∃ new, Gives paths s ((s.setLink k link).proceed r.op (next a)) new := by
  have hcalls : s.Calls serde (s.setLink k link).CleanAt :=
    h.calls.mono (fun j hj => cleanAt_setLink hclean hj) rfl rfl
  obtain ⟨hcalls', hgives⟩ := hcalls.answered lawful hrun hv hpermits (.inr hgranted)
    (s.setLink k link) rfl
  exact ⟨healthy_proceed h.up h.holds hcalls', hgives⟩

theorem cleanAt_set_self {k : ConnId} {link link' : Link} (hlink : s.links[k]? = some link')
    (hclean : link.Clean) : (s.setLink k link).CleanAt k := by
  exact ⟨link, setLink_get hlink link, hclean⟩

/-- **Prompt surroundings keep the rig healthy, and serve what returns.** -/
theorem Healthy.step (lawful : serde.Lawful) (h : s.Healthy serde paths) {count : Nat}
    {t : Federation (Program Ask Ask.Answer (Outcome × VaultClient))} {g : Posted}
    (hcount : count + 1 < UInt64.size) (htracks : s.Tracks serde count t g) {e : RigEvent}
    (hprompt : s.Prompt e) (hs : s.step serde e = some s') :
    s'.Healthy serde paths ∧ ∃ new, Gives paths s s' new := by
  cases step_moves hs with
  | @call op hrun =>
    have hat : (Phase.start op s.client s.time).At _ op := Phase.at_start (h.calls.idle hrun) s.time
    have hf : Follows (Phase.view serde.fromStr) (Phase.start op s.client s.time) _ :=
      Phase.start_follows op s.client s.time
    exact ⟨healthy_proceed h.up h.holds (calls_proceed hf hat s),
      gives_proceed hf hat (Phase.serving_start s.time) rfl⟩
  | @dial r next hrun hwait hv =>
    have hup : ¬ s.down = true := by
      rw [h.up]
      exact Bool.false_ne_true
    unfold Rig.dial
    rw [if_neg hup]
    have hexpects : Stage.Expects r.process.view .probe (.discover 1) := trivial
    refine ⟨healthy_await h hrun ?_ List.getElem?_concat_length Link.clean_dialled
      (Link.awaits_dialled serde _) hexpects, none, gives_none rfl⟩
    rintro j ⟨link, hlink, hclean⟩
    refine ⟨link, ?_, hclean⟩
    show (s.links ++ [Link.dialled])[j]? = some link
    rw [List.getElem?_append_left (List.getElem?_eq_some_iff.mp hlink).1, hlink]
  | @send r k call link next hrun hwait hv hlink =>
    obtain ⟨φ, next', hat, hφ, -⟩ := h.calls.next hrun hv
    obtain ⟨link₁, hlink₁, hclean⟩ := Phase.at_callTool hat hφ
    cases hlink.symm.trans hlink₁
    obtain ⟨link', heq, hclean', hawaits⟩ : ∃ link',
        link.request "tools/call" call.params = (.ok (), link') ∧ link'.Clean ∧
          link'.Awaits serde (FakeVault.Holds paths) (.tool (link.conn.nextId + 1) 0 call) :=
      hclean.request (htracks.shares.links k link hlink) hcount rfl rfl
    rw [heq]
    exact ⟨healthy_await h hrun (fun j => cleanAt_setLink hclean') (setLink_get hlink _) hclean' hawaits
      ⟨k, call, next, _, _, hv, rfl⟩, none, gives_none rfl⟩
  | @probed r k link deadline next hrun hwait hv hlink =>
    obtain ⟨rfl, -⟩ := hprompt
    obtain ⟨link₁, p, hlink₁, hclean, -, -⟩ := h.waiting r hrun _ hwait
    cases hlink.symm.trans hlink₁
    have htracks' := (htracks.shares.links k link hlink).settle serde none
    have hclean' := hclean.settle serde
    generalize (link.settle serde none).2 = link' at htracks' hclean' ⊢
    let discovered : Link :=
      { link' with conn := { link'.conn with era := McpConnection.eraOf (link.settle serde none).1 } }
    have hdiscovered : discovered.Clean := ⟨hclean'.alive, hclean'.lines, hclean'.taken_le⟩
    obtain ⟨link'', heq, hclean'', hawaits⟩ : ∃ link'',
        discovered.request "initialize" McpConnection.initializeParams = (.ok (), link'') ∧
          link''.Clean ∧
          link''.Awaits serde (FakeVault.Holds paths) (.handshake (link'.conn.nextId + 1)) :=
      hdiscovered.request { htracks' with } hcount rfl rfl
    unfold Link.probed
    rw [heq]
    exact ⟨healthy_await h hrun (fun j => cleanAt_setLink hclean'') (setLink_get hlink _) hclean'' hawaits
      ⟨_, rfl⟩, none, gives_none rfl⟩
  | @initialized r k link deadline next hrun hwait hv hlink =>
    obtain ⟨rfl, htaken⟩ := hprompt
    obtain ⟨link₁, p, hlink₁, hclean, hawaits, id, rfl⟩ := h.waiting r hrun _ hwait
    cases hlink.symm.trans hlink₁
    obtain ⟨v, l, -, hl, hreply⟩ := hawaits.settle lawful hclean
      (htracks.shares.links k link hlink) (htaken r hrun _ hwait link hlink hclean.alive)
    cases hl
    have hclean' := hclean.settle serde
    obtain ⟨link', heq, hclean''⟩ := hclean'.initialized
    unfold Rig.finish
    rw [hreply]
    dsimp only [FakeVault.answer_resultMessage]
    rw [heq]
    refine h.granted lawful hrun hv hclean'' ?_ ⟨k, rfl⟩
    rintro k' ⟨⟩
    exact cleanAt_set_self hlink hclean''
  | @answered r k k' call link deadline next hrun hwait hv hlink =>
    obtain ⟨rfl, htaken⟩ := hprompt
    obtain ⟨link₁, p, hlink₁, hclean, hawaits, hexpects⟩ := h.waiting r hrun _ hwait
    cases hlink.symm.trans hlink₁
    obtain ⟨k₁, call₁, next₁, id, rid, hv₁, rfl⟩ := hexpects
    cases hv.symm.trans hv₁
    obtain ⟨v, l, hv', hl, hreply⟩ := hawaits.settle lawful hclean
      (htracks.shares.links k link hlink) (htaken r hrun _ hwait link hlink hclean.alive)
    rw [Post.message, FakeVault.handle_request] at hl
    cases hl
    rw [hreply, FakeVault.toolBody_response]
    exact h.granted lawful hrun hv (hclean.settle serde) trivial ⟨v, hv', rfl⟩
  | @serve k link msg hlink halive hmsg =>
    have hlinks := htracks.shares.links k link hlink
    obtain ⟨p, -, rfl, -⟩ := hlinks.post_of_sent hmsg
    refine ⟨⟨h.up, h.holds.handle serde.toString p, ?_, ?_⟩, none, gives_none rfl⟩
    · refine h.calls.mono ?_ rfl rfl
      intro j hj
      obtain ⟨link', hlink', hclean⟩ := hj
      by_cases hjk : k = j
      · subst hjk
        cases hlink.symm.trans hlink'
        exact ⟨_, setLink_get hlink _, hclean.took hmsg _⟩
      · refine ⟨link', ?_, hclean⟩
        show (s.links.set k _)[j]? = some link'
        rw [List.getElem?_set_ne hjk, hlink']
    · intro r hrun w hw
      obtain ⟨link', q, hlink', hclean, hawaits, hexpects⟩ := h.waiting r hrun w hw
      by_cases hwk : k = w.1
      · subst hwk
        cases hlink.symm.trans hlink'
        exact ⟨_, q, setLink_get hlink _, hclean.took hmsg _, hawaits.took hlinks h.holds hmsg, hexpects⟩
      · refine ⟨link', q, ?_, hclean, hawaits, hexpects⟩
        show (s.links.set k _)[w.1]? = some link'
        rw [List.getElem?_set_ne hwk, hlink']
  | humanEdit =>
    exact ⟨⟨h.up, h.holds.humanEdit _ _, h.calls.mono (fun _ hk => hk) rfl rfl, h.waiting⟩, none,
      gives_none rfl⟩
  | killAll => exact hprompt.elim
  | restart => exact ⟨⟨rfl, h.holds, h.calls.mono (fun _ hk => hk) rfl rfl, h.waiting⟩, none, gives_none rfl⟩
  | tick =>
    exact ⟨⟨h.up, h.holds, h.calls.mono (fun _ hk => hk) rfl rfl, h.waiting⟩, none, gives_none rfl⟩

/-! ## After the outage -/

theorem dial_frame (s : Rig) (r : RigCall)
    (next : Ask.Answer .connect → Program Ask Ask.Answer (Outcome × VaultClient)) :
    (s.dial r next).down = s.down ∧ (s.dial r next).vault = s.vault := by
  unfold Rig.dial
  split
  · exact ⟨proceed_down .., proceed_vault ..⟩
  · exact ⟨rfl, rfl⟩

theorem written_frame (s : Rig) (r : RigCall) (k : ConnId) (stage : Stage)
    (failed : McpError → Program Ask Ask.Answer (Outcome × VaultClient))
    (result : Except McpError Unit × Link) :
    (s.written r k stage failed result).down = s.down ∧
      (s.written r k stage failed result).vault = s.vault := by
  obtain ⟨e | ⟨⟩, link⟩ := result
  · exact ⟨proceed_down .., proceed_vault ..⟩
  · exact ⟨rfl, rfl⟩

theorem finish_frame (s : Rig) (r : RigCall) (k : ConnId) (link : Link)
    (next : Ask.Answer .connect → Program Ask Ask.Answer (Outcome × VaultClient))
    (reply : Except McpError Json) :
    (s.finish r k link next reply).down = s.down ∧
      (s.finish r k link next reply).vault = s.vault := by
  unfold Rig.finish
  split
  · exact ⟨proceed_down .., proceed_vault ..⟩
  · split <;> exact ⟨proceed_down .., proceed_vault ..⟩

/-- Prompt surroundings keep Alfred up, and nobody removes a note. -/
theorem step_up {count : Nat} {t : Federation (Program Ask Ask.Answer (Outcome × VaultClient))}
    {g : Posted} (htracks : s.Tracks serde count t g) (hup : s.down = false)
    (hholds : s.vault.Holds paths) {e : RigEvent} (hprompt : s.Prompt e)
    (hs : s.step serde e = some s') : s'.down = false ∧ s'.vault.Holds paths := by
  have hsame : ∀ {s₁ : Rig}, s₁.down = s.down ∧ s₁.vault = s.vault →
      s₁.down = false ∧ s₁.vault.Holds paths := by
    rintro s₁ ⟨hdown, hvault⟩
    rw [hdown, hvault]
    exact ⟨hup, hholds⟩
  cases step_moves hs with
  | call => exact hsame ⟨proceed_down .., proceed_vault ..⟩
  | dial => exact hsame (dial_frame ..)
  | send => exact hsame (written_frame ..)
  | probed => exact hsame (written_frame ..)
  | initialized => exact hsame (finish_frame ..)
  | answered => exact hsame ⟨proceed_down .., proceed_vault ..⟩
  | @serve k link msg hlink halive hmsg =>
    obtain ⟨p, -, rfl, -⟩ := (htracks.shares.links k link hlink).post_of_sent hmsg
    exact ⟨hup, hholds.handle serde.toString p⟩
  | humanEdit => exact ⟨hup, hholds.humanEdit _ _⟩
  | killAll => exact hprompt.elim
  | restart => exact ⟨rfl, hholds⟩
  | tick => exact ⟨hup, hholds⟩

/-- An outage that was reported is over: the rig is healthy, and what came since was served. -/
def Recovered (serde : JsonSerde) (paths : String → Prop) (s' : Rig) (rets : List (Op × Outcome)) :
    Prop :=
  ∀ before x after, rets = before ++ x :: after → x.2.reportsOutage = true →
    s'.Healthy serde paths ∧ ∀ y ∈ after, paths y.1.path → y.1.ServedBy y.2

theorem Recovered.step (lawful : serde.Lawful) {rets : List (Op × Outcome)}
    (h : s.Recovered serde paths rets) (hlinked : s.Linked serde) (hup : s.down = false)
    (hholds : s.vault.Holds paths) {count : Nat}
    {t : Federation (Program Ask Ask.Answer (Outcome × VaultClient))} {g : Posted}
    (hcount : count + 1 < UInt64.size) (htracks : s.Tracks serde count t g) {e : RigEvent}
    (hprompt : s.Prompt e) (hs : s.step serde e = some s') :
    ∃ new : Option (Op × Outcome), s'.returns = s.returns ++ new.toList ∧
      s'.Recovered serde paths (rets ++ new.toList) := by
  obtain ⟨hup', hholds'⟩ := step_up htracks hup hholds hprompt hs
  obtain ⟨-, new, hgives⟩ := linked_step lawful hlinked hs
  refine ⟨new, hgives.returns, ?_⟩
  -- what the healthy rig gives is what the step gives
  have hhealthy : s.Healthy serde paths → s'.Healthy serde paths ∧
      ∀ y ∈ new, paths y.1.path → y.1.ServedBy y.2 := by
    intro hsound
    obtain ⟨hsound', new', hgives'⟩ := hsound.step lawful hcount htracks hprompt hs
    refine ⟨hsound', ?_⟩
    intro y hy
    have heq := List.append_cancel_left (hgives.returns.symm.trans hgives'.returns)
    refine hgives'.served y ?_
    rw [Option.mem_def.mp hy] at heq
    cases new' with
    | none => cases heq
    | some y' =>
      cases heq
      rfl
  cases new with
  | none =>
    intro before x after hsplit hx
    rw [Option.toList_none, List.append_nil] at hsplit
    obtain ⟨hsound, hserved⟩ := h before x after hsplit hx
    exact ⟨(hhealthy hsound).1, hserved⟩
  | some y =>
    intro before x after hsplit hx
    rcases snoc_eq_append_cons hsplit with ⟨later, rfl, hold⟩ | ⟨rfl, -, rfl⟩
    · obtain ⟨hsound, hserved⟩ := h before x later hold hx
      obtain ⟨hsound', hnew⟩ := hhealthy hsound
      refine ⟨hsound', ?_⟩
      intro z hz
      rcases mem_snoc.mp hz with hz | rfl
      · exact hserved z hz
      · exact hnew z rfl
    · obtain ⟨hrun, hoff⟩ := hgives.outage y rfl hx
      exact ⟨healthy_of_offline hup' hholds' hrun hoff, List.forall_mem_nil _⟩

/-- **The client recovers with the first call that reports the outage.** In surroundings that are prompt
from some point on, once a call has said that Alfred was not reached, every later call on a note that
was there is served: a read with a copy that is not stale, and a write with a version, a conflict, or the
demand to read the note first. -/
theorem run_stabilizes (lawful : serde.Lawful) {tr es : List RigEvent}
    (h : (machine serde).run new tr = some s) (hup : s.down = false)
    (h' : (machine serde).run s es = some s') (prompt : (machine serde).Along s Prompt es)
    (short : tr.length + es.length < UInt64.size) {before after : List (Op × Outcome)}
    {x : Op × Outcome} (hreturns : s'.returns = s.returns ++ (before ++ x :: after))
    (hx : x.2.reportsOutage = true) :
    ∀ y ∈ after, (s.vault.notes y.1.path).isSome = true → y.1.ServedBy y.2 := by
  let there : String → Prop := fun p => (s.vault.notes p).isSome = true
  suffices hP : (machine serde).Along s Prompt es → tr.length + es.length < UInt64.size →
      s'.down = false ∧ s'.vault.Holds there ∧
        ∃ rets, s'.returns = s.returns ++ rets ∧ s'.Recovered serde there rets by
    obtain ⟨-, -, rets, hrets, hrecovered⟩ := hP prompt short
    have heq := List.append_cancel_left (hrets.symm.trans hreturns)
    exact (hrecovered before x after heq hx).2
  clear hreturns prompt short
  refine (machine serde).history (P := fun es s' => (machine serde).Along s Prompt es →
    tr.length + es.length < UInt64.size → s'.down = false ∧ s'.vault.Holds there ∧
      ∃ rets, s'.returns = s.returns ++ rets ∧ s'.Recovered serde there rets) ?_ ?_ h'
  · refine fun _ _ => ⟨hup, fun _ hp => hp, [], (List.append_nil _).symm, ?_⟩
    intro before x after hsplit
    exact absurd hsplit.symm (List.append_ne_nil_of_right_ne_nil before nofun)
  · intro es s₁ e s₂ hrun ih hstep hprompt hshort
    rw [List.length_append, List.length_singleton, ← Nat.add_assoc] at hshort
    obtain ⟨hprompt, hlast⟩ := (machine serde).along_snoc.mp hprompt
    obtain ⟨hup, hholds, rets, hrets, hrecovered⟩ := ih hprompt (Nat.lt_of_succ_lt hshort)
    have hreach : (machine serde).run new (tr ++ es) = some s₁ :=
      (machine serde).run_append_some.mpr ⟨s, h, hrun⟩
    obtain ⟨events, t, g, -, htracks⟩ := run_tracks lawful hreach
      (by rw [List.length_append]; exact Nat.lt_of_succ_lt hshort)
    rw [List.length_append] at htracks
    obtain ⟨hup', hholds'⟩ := step_up htracks hup hholds (hlast s₁ hrun) hstep
    obtain ⟨new, hnew, hrecovered'⟩ := hrecovered.step lawful (run_linked lawful hreach) hup hholds
      hshort htracks (hlast s₁ hrun) hstep
    refine ⟨hup', hholds', rets ++ new.toList, ?_, hrecovered'⟩
    rw [hnew, hrets, List.append_assoc]

theorem run_returns (lawful : serde.Lawful) {tr es : List RigEvent}
    (h : (machine serde).run new tr = some s) (h' : (machine serde).run s es = some s') :
    s.returns <+: s'.returns := by
  refine (machine serde).history (P := fun _ s' => s.returns <+: s'.returns) List.prefix_rfl ?_ h'
  intro es s₁ e s₂ hrun hpre hstep
  have hreach : (machine serde).run new (tr ++ es) = some s₁ :=
    (machine serde).run_append_some.mpr ⟨s, h, hrun⟩
  obtain ⟨-, new, hgives⟩ := linked_step lawful (run_linked lawful hreach) hstep
  rw [hgives.returns]
  exact hpre.trans (List.prefix_append _ _)

end Rig

namespace Sample

/-- Alfred goes down and comes back while a read is connecting. -/
def outageRun : List RigEvent :=
  [.humanEdit "n" "a", .call (.read "n"), .dial, .killAll, .restart]

/-- The read finds the connection dead, and the next read makes a new one. -/
def afterOutage : List RigEvent :=
  [.settle none, .call (.read "n"), .dial, .serve 1, .settle none, .serve 1, .settle none, .serve 1,
    .send, .serve 1, .settle none]

theorem afterOutage_some : ∃ s s', (Rig.machine compactText).run Rig.new outageRun = some s ∧
    s.down = false ∧ (Rig.machine compactText).run s afterOutage = some s' ∧
    (Rig.machine compactText).Along s Rig.Prompt afterOutage ∧ s.returns.length = 0 ∧
    s'.returns.length = 2 ∧ (s'.returns[0]?).any (·.2.reportsOutage) = true := by
  have h : ((Rig.machine compactText).run Rig.new outageRun).any (fun s =>
      s.down = false ∧ s.returns.length = 0 ∧
        (((Rig.machine compactText).guarded Rig.Prompt).run s afterOutage).any fun s' =>
          s'.returns.length = 2 ∧ (s'.returns[0]?).any (·.2.reportsOutage) = true) = true := by
    decide +kernel
  obtain ⟨s, hrun, hs⟩ := (Option.any_eq_true _ _).mp h
  obtain ⟨hup, hlength, hrest⟩ := of_decide_eq_true hs
  obtain ⟨s', hguarded, hs'⟩ := (Option.any_eq_true _ _).mp hrest
  obtain ⟨hrun', hprompt⟩ := (Rig.machine compactText).run_guarded hguarded
  obtain ⟨hlength', hout⟩ := of_decide_eq_true hs'
  exact ⟨s, s', hrun, hup, hrun', hprompt, hlength, hlength', hout⟩

end Sample

/-- After the sample outage the read in progress reports it, and the next one is served. -/
theorem Rig.run_stabilizes_sample :
    ∃ s s' x after, (machine compactText).run new Sample.outageRun = some s ∧
      (machine compactText).run s Sample.afterOutage = some s' ∧
      s'.returns = s.returns ++ ([] ++ x :: after) ∧ x.2.reportsOutage = true ∧ after.length = 1 ∧
      ∀ y ∈ after, (s.vault.notes y.1.path).isSome = true → y.1.ServedBy y.2 := by
  obtain ⟨s, s', hrun, hup, hrun', hprompt, hlength, hlength', hout⟩ := Sample.afterOutage_some
  obtain ⟨rets, hrets⟩ := run_returns compactText_lawful hrun hrun'
  rw [List.eq_nil_of_length_eq_zero hlength, List.nil_append] at hrets
  rw [← hrets] at hlength' hout
  match rets, hrets, hlength', hout with
  | x :: after, hrets, hlength', hout =>
    have hsplit : s'.returns = s.returns ++ ([] ++ x :: after) := by
      rw [List.eq_nil_of_length_eq_zero hlength]
      exact hrets.symm
    exact ⟨s, s', x, after, hrun, hrun', hsplit, hout, Nat.succ.inj hlength',
      run_stabilizes compactText_lawful hrun hup hrun' hprompt (by decide) hsplit hout⟩

end GooseClaw
