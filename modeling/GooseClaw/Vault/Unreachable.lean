import GooseClaw.Vault.Elsewhere
import GooseClaw.Vault.Refusals

/-!
# Offline means unreachable

A client goes offline to say that its server cannot be reached: the connection is dropped, reads are
served from the cache as stale, and the next write has to revalidate. A server that refuses a call has
been reached, so a refusal should change none of this (`Undisturbed`). The error arms of `read` and
`write` do not ask what kind of error they got, and take the client offline for a refusal as for a
dead connection. `refusal_undisturbed_iff` says which refusals leave the client where it was.
-/

namespace GooseClaw

open Found VaultClient

/-! ## Refused calls -/

section Refused

variable (fromStr : String → Except String Json)

/-- A tool-level refusal: any of a `vault_read`, and one of a `vault_write` that is no conflict. -/
def IsRefusal (text : String) : ToolCall → Prop
  | .vaultRead _ => True
  | .vaultWrite _ _ _ => ¬ ReportsConflict fromStr text

/-- What a refused call should leave, begun with the client `c`: the client online on the connection, no
more bound to revalidate than before, and the same to every later call on another note. -/
structure Undisturbed (conn : ConnId) (path : String) (c after : VaultClient) : Prop where
  live : after.Live conn
  unarmed : after.needsRevalidation = true → c.needsRevalidation = true
  elsewhere : SameElsewhere fromStr path c after

/-- The rest of the call is one `vault_read` of the note over the connection, and it brings the note. -/
def ReadsAgain (conn : ConnId) (path : String) (rest : Dialogue Ask Ask.Answer) : Prop :=
  ∃ text body now, rest = [⟨.callTool conn (.vaultRead path), (.ok (text, false), now)⟩] ∧
    fromStr text = .ok body

end Refused

/-- The call is a write that revalidates, and its first question is awaited. -/
def Revalidating (op : Op) (c : VaultClient) (d : Dialogue Ask Ask.Answer) : Prop :=
  (∃ path content, op = .write path content) ∧ c.needsRevalidation = true ∧ d = []

/-! ## Points of a call begun online -/

/-- Where a call begun online may wait after a dialogue. -/
def Phase.Reachable (op : Op) (c : VaultClient) (d : Dialogue Ask Ask.Answer) : Phase → Prop
  | .reconnecting _ _ => False
  | .dialing why path _ => why = .read ∧ op = .read path
  | .fetching .read path conn c' => op = .read path ∧ c'.Live conn
  | .fetching (.revalidate content) path conn c' =>
    op = .write path content ∧ c' = c ∧ c.Live conn ∧ c.needsRevalidation = true ∧ d = []
  | .fetching .reread _ conn c' => c'.Live conn ∧ d ≠ []
  | .dialingWrite _ _ _ _ => False
  | .writing path _ _ conn c' => op.path = path ∧ c'.Live conn ∧ c'.needsRevalidation = false ∧
    (d = [] → c.needsRevalidation = false) ∧ (c.needsRevalidation = false → c' = c)
  | .done _ _ => True

namespace Phase

variable {fromStr : String → Except String Json} {op : Op} {c : VaultClient}
  {d : Dialogue Ask Ask.Answer}

theorem reachable_readOffline (path : String) (e : KnowledgeError) (c' : VaultClient) :
    (readOffline path e c').Reachable op c d := by
  rw [readOffline_eq]
  exact trivial

theorem reachable_writeFailed (e : KnowledgeError) (c' : VaultClient) :
    (writeFailed e c').Reachable op c d := by
  rw [writeFailed_eq]
  exact trivial

/-- With a live connection, a write with a copy goes straight to its server. -/
theorem reachable_submit {path content : String} {c' : VaultClient} {conn : ConnId}
    (hop : op.path = path) (hlive : c'.Live conn) (hfree : c'.needsRevalidation = false)
    (hfirst : d = [] → c.needsRevalidation = false) (hsame : c.needsRevalidation = false → c' = c) :
    (submit path content c').Reachable op c d := by
  unfold submit
  cases hk : c'.cache path with
  | none => exact trivial
  | some k =>
    simp only [send_live _ _ _ hlive]
    exact ⟨hop, hlive, hfree, hfirst, hsame⟩

/-- A call begins online. -/
theorem reachable_start (hw : c.WellFormed) (hon : c.offline = false) (now : Instant) :
    (start op c now).Reachable op c [] := by
  simp only [start, hon, Bool.false_eq_true, if_false]
  have hcases := online_cases op now c
  generalize online op now c = φ at hcases ⊢
  cases hcases with
  | hit => exact trivial
  | read =>
    cases hconn : c.conn with
    | some conn =>
      rw [fetch_live _ _ ⟨hconn, hon⟩]
      exact ⟨rfl, hconn, hon⟩
    | none =>
      simp only [fetch, hon, hconn]
      exact ⟨rfl, rfl⟩
  | revalidate hreval =>
    obtain ⟨conn, hlive⟩ := WellFormed.live hw hon (.inr hreval)
    rw [fetch_live _ _ hlive]
    exact ⟨rfl, rfl, hlive, hreval, rfl⟩
  | @submit path content hreval =>
    cases hk : c.cache path with
    | none =>
      simp only [submit, hk]
      exact trivial
    | some k =>
      obtain ⟨conn, hlive⟩ := WellFormed.live_of_held hw hon hk
      exact reachable_submit rfl hlive hreval (fun _ => hreval) fun _ => rfl

/-- Every answer leads to a place a call begun online may be at. -/
theorem reachable_step {φ : Phase} {q : Ask} {next : q.Answer → Phase}
    (h : φ.Reachable op c d) (hv : view fromStr φ = .waiting q next) (a : q.Answer) :
    (next a).Reachable op c (d ++ [⟨q, a⟩]) := by
  have hne : d ++ [⟨q, a⟩] ≠ [] := List.append_ne_nil_of_right_ne_nil _ (List.cons_ne_nil _ _)
  cases φ with
  | reconnecting op' c' => exact h.elim
  | dialing why path c' =>
    obtain ⟨rfl, hop⟩ := h
    cases hv
    obtain ⟨e | conn, now⟩ := a
    · exact reachable_readOffline _ _ _
    · exact ⟨hop, live_connected c' conn⟩
  | fetching why path conn c' =>
    cases hv
    obtain ⟨reply, now⟩ := a
    show (readAnswered fromStr why path c' now reply).Reachable op c _
    rcases readAnswered_cases fromStr why path c' now reply 0 none with
      ⟨k, -, -, heq⟩ | ⟨e, -, heq, -⟩
    · rw [heq]
      cases why with
      | read => exact trivial
      | revalidate content =>
        obtain ⟨rfl, rfl, hlive, hreval, -⟩ := h
        refine reachable_submit rfl (hlive.learned path k) rfl (fun hd => absurd hd hne) ?_
        intro hfree
        rw [hreval] at hfree
        cases hfree
      | reread => exact trivial
    · rw [heq]
      cases why with
      | read => exact reachable_readOffline _ _ _
      | revalidate content => exact trivial
      | reread => exact reachable_writeFailed _ _
  | dialingWrite path content expected c' => exact h.elim
  | writing path content expected conn c' =>
    cases hv
    obtain ⟨reply, now⟩ := a
    show (writeAnswered fromStr path content c' now reply).Reachable op c _
    rcases writeAnswered_cases fromStr path content expected c' now reply 0 none with
      ⟨v, -, heq⟩ | ⟨text, -, -, -, heq⟩ | ⟨e, -, -, heq, -⟩
    · rw [heq]
      exact trivial
    · rw [heq, fetch_live _ _ (h.2.1.discarded path)]
      exact ⟨h.2.1.discarded path, hne⟩
    · rw [heq]
      exact reachable_writeFailed _ _
  | done outcome c' => cases hv

end Phase

/-! ## Refusals -/

section

variable {fromStr : String → Except String Json} {op : Op} {c : VaultClient}
  {d : Dialogue Ask Ask.Answer} {conn : ConnId}

/-- A call that ended with the client offline was disturbed. -/
theorem not_undisturbed_of_down {path : String} {after : VaultClient} (h : after.Down) :
    ¬ Undisturbed fromStr conn path c after := by
  intro hundisturbed
  have hon := hundisturbed.live.2
  rw [h.1] at hon
  cases hon

/-- What is left of a program that has returned. -/
theorem eq_of_ret_reaches {d : Dialogue Ask Ask.Answer} {r r' : Outcome × VaultClient}
    (h : (Program.ret r : Program Ask Ask.Answer _).Reaches d (.ret r')) : d = [] ∧ r' = r := by
  cases h
  exact ⟨rfl, rfl⟩

/-- A read that falls back on its copy leaves the client down. -/
theorem down_of_readOffline {path : String} {e : KnowledgeError} {c' : VaultClient}
    {p : Program Ask Ask.Answer (Outcome × VaultClient)} {rest : Dialogue Ask Ask.Answer}
    {outcome : Outcome} {after : VaultClient}
    (h : Follows (Phase.view fromStr) (Phase.readOffline path e c'.markOfflineOf) p)
    (hrest : p.Reaches rest (.ret (outcome, after))) : after.Down := by
  rw [Phase.readOffline_eq] at h
  rw [h.eq_ret rfl] at hrest
  cases (eq_of_ret_reaches hrest).2
  exact down_markOffline c'

/-- So does a write that fails. -/
theorem down_of_writeFailed {e : KnowledgeError} {c' : VaultClient}
    {p : Program Ask Ask.Answer (Outcome × VaultClient)} {rest : Dialogue Ask Ask.Answer}
    {outcome : Outcome} {after : VaultClient}
    (h : Follows (Phase.view fromStr) (Phase.writeFailed e c') p)
    (hrest : p.Reaches rest (.ret (outcome, after))) : after.Down := by
  rw [Phase.writeFailed_eq] at h
  rw [h.eq_ret rfl] at hrest
  cases (eq_of_ret_reaches hrest).2
  exact down_markOffline c'

/-- **How a re-read ends its write**: over the connection and with the note, or with the client down. -/
theorem rereading_cases {path : String} {c' : VaultClient}
    {p : Program Ask Ask.Answer (Outcome × VaultClient)} {rest : Dialogue Ask Ask.Answer}
    {outcome : Outcome} {after : VaultClient}
    (h : Follows (Phase.view fromStr) (.fetching .reread path conn c') p)
    (hrest : p.Reaches rest (.ret (outcome, after))) :
    (ReadsAgain fromStr conn path rest ∧ ∃ k, after = Phase.learned c' path k) ∨
      (¬ ReadsAgain fromStr conn path rest ∧ after.Down) := by
  obtain ⟨next, rfl, hnext⟩ := h.eq_ask rfl
  cases hrest with
  | @ask _ _ a rest _ hrest =>
    obtain ⟨reply, now⟩ := a
    have hend : Follows (Phase.view fromStr) (Phase.readAnswered fromStr .reread path c' now reply)
        (next (reply, now)) := hnext (reply, now)
    rcases Phase.readAnswered_cases fromStr .reread path c' now reply 0 none with
      ⟨k, hk, -, heq⟩ | ⟨e, hk, heq, -⟩
    · rw [heq] at hend
      rw [hend.eq_ret rfl] at hrest
      obtain ⟨rfl, hafter⟩ := eq_of_ret_reaches hrest
      cases hafter
      obtain ⟨-, text, body, rfl, hbody, -⟩ := Entry.of_confirms_read hk
      exact .inl ⟨⟨text, body, now, rfl, hbody⟩, k, rfl⟩
    · rw [heq] at hend
      refine .inr ⟨?_, down_of_writeFailed hend hrest⟩
      rintro ⟨text, body, now', hd, hbody⟩
      obtain ⟨hq, rfl⟩ := List.cons.inj hd
      cases hq
      simp only [Entry.confirms, hbody, reduceCtorEq] at hk

/-- **The refusals of a call begun online**: the call leaves the client where it was exactly when the
refusal is that of a write's revalidation, or one of `vault_write` that is mistaken for a conflict, in a
write that had nothing to revalidate and whose re-read brings the note. -/
theorem undisturbed_iff (hw : c.WellFormed) (hon : c.offline = false) {start : Instant}
    {call : ToolCall} {next : Ask.Answer (.callTool conn call) →
      Program Ask Ask.Answer (Outcome × VaultClient)}
    (hr : (op.program fromStr c start).Reaches d (.ask (.callTool conn call) next))
    {text : String} (refusal : IsRefusal fromStr text call) (now : Instant)
    {rest : Dialogue Ask Ask.Answer} {outcome : Outcome} {after : VaultClient}
    (hrest : (next (.ok (text, true), now)).Reaches rest (.ret (outcome, after))) :
    Undisturbed fromStr conn op.path c after ↔
      Revalidating op c d ∨
        (call.isWrite = true ∧ MentionsConflict text ∧ (∃ body, fromStr text = .ok body) ∧
          c.needsRevalidation = false ∧ ReadsAgain fromStr conn op.path rest) := by
  obtain ⟨φ, hφ, hreach⟩ := Follows.reaches (I := fun d φ => φ.Reachable op c d)
    Phase.reachable_step hr (Phase.start_follows op c start) (Phase.reachable_start hw hon start)
  cases φ with
  | fetching why path conn' c' =>
    obtain ⟨next', hnext', hall⟩ := hφ.eq_ask rfl
    cases hnext'
    have hend := hall (.ok (text, true), now)
    cases why with
    | read =>
      obtain ⟨rfl, -⟩ := hreach
      refine iff_of_false (not_undisturbed_of_down (down_of_readOffline hend hrest)) ?_
      rintro (⟨⟨path', content, hop⟩, -⟩ | ⟨hwrite, -⟩)
      · cases hop
      · cases hwrite
    | revalidate content =>
      obtain ⟨rfl, rfl, hlive, hreval, hd⟩ := hreach
      refine iff_of_true ?_ (.inl ⟨⟨path, content, rfl⟩, hreval, hd⟩)
      -- the failure of a revalidation leaves the very client the call began with
      rw [hend.eq_ret rfl] at hrest
      cases (eq_of_ret_reaches hrest).2
      exact ⟨hlive, id, sameElsewhere_of_agreeOff (.refl _ _)⟩
    | reread =>
      have hfails : Follows (Phase.view fromStr)
          (Phase.writeFailed (.protocol ("vault_read refused: " ++ text)) c')
          (next' (.ok (text, true), now)) := hend
      refine iff_of_false (not_undisturbed_of_down (down_of_writeFailed hfails hrest)) ?_
      rintro (⟨-, -, hd⟩ | ⟨hwrite, -⟩)
      · exact hreach.2 hd
      · cases hwrite
  | writing path content expected conn' c' =>
    obtain ⟨next', hnext', hall⟩ := hφ.eq_ask rfl
    cases hnext'
    have hend := hall (.ok (text, true), now)
    obtain ⟨rfl, hlive, hfree', hfirst, hsame⟩ := hreach
    have hno : ¬ Revalidating op c d := by
      rintro ⟨-, hreval, hd⟩
      rw [hfirst hd] at hreval
      cases hreval
    rcases Phase.writeRefused_cases op.path content text now hlive with
      ⟨body, hbody, hconflict, hstep⟩ | ⟨message, hstep, hother⟩
    · have hmentions : MentionsConflict text := by
        rcases hconflict with hnames | hmentions
        · exact absurd ((reportsConflict_of_ok hbody).mpr hnames) refusal
        · exact hmentions
      rw [or_iff_right hno]
      rcases rereading_cases (hstep ▸ hend) hrest with ⟨hagain, k, rfl⟩ | ⟨hagain, hdown⟩
      · constructor
        · intro hundisturbed
          refine ⟨rfl, hmentions, ⟨body, hbody⟩, ?_, hagain⟩
          -- a client bound to revalidate would read another note first
          refine Bool.eq_false_iff.mpr fun harmed => ?_
          obtain ⟨conn₀, hlive₀⟩ := WellFormed.live hw hon (.inr harmed)
          exact not_sameElsewhere_of_armed hlive₀ hundisturbed.live harmed hfree'
            hundisturbed.elsewhere
        · rintro ⟨-, -, -, hfree, -⟩
          cases hsame hfree
          refine ⟨hlive, ?_, sameElsewhere_of_agreeOff (agreeOff_learned _ _ k)⟩
          exact id
      · refine iff_of_false (not_undisturbed_of_down hdown) ?_
        rintro ⟨-, -, -, -, h⟩
        exact hagain h
    · have hdown := down_of_writeFailed (hstep ▸ hend) hrest
      refine iff_of_false (not_undisturbed_of_down hdown) ?_
      rintro (hreval | ⟨-, hmentions, ⟨body, hbody⟩, -⟩)
      · exact hno hreval
      · exact hother body hbody (.inr hmentions)
  | reconnecting op' c' => exact hreach.elim
  | dialing why path c' =>
    obtain ⟨next', hnext', -⟩ := hφ.eq_ask rfl
    cases hnext'
  | dialingWrite path content expected c' => exact hreach.elim
  | done outcome c' => cases hφ.eq_ret rfl

end

namespace Sample

/-- After an outage, a read brings the client back online. -/
def backOnline : List Event :=
  firstRead ++ lostRead ++ [.call (.read path), .connected (.ok 1)] ++
    exchange 1 (shown "first" "v1") none

/-- The refusal of a note that does not exist. -/
def notFound : String := "NOT FOUND: other.md"

end Sample

namespace Federation

variable {fromStr : String → Except String Json} {vault : String → Option Note} {tr : List Event}
  {s : Federation (Program Ask Ask.Answer (Outcome × VaultClient))}

/-- **Which refusals leave the client online.** In every state that a run of the federation reaches
between two calls with the client online, at every point of every call made there, and however the call
goes on: a call that meets a tool-level refusal ends with the client on its connection, with nothing to
revalidate that it had not before and the same to all later calls on other notes, if and only if the
refusal is that of the read that revalidates a write, or is a JSON refusal of `vault_write` that mentions a
conflict, in a write that had nothing to revalidate and whose re-read brings the note. -/
theorem refusal_undisturbed_iff (h : (machine fromStr).run (init vault) tr = some s)
    (idle : s.running = none) (online : s.world.client.offline = false) {op : Op} {start : Instant}
    {d : Dialogue Ask Ask.Answer} {conn : ConnId} {call : ToolCall}
    {next : Ask.Answer (.callTool conn call) → Program Ask Ask.Answer (Outcome × VaultClient)}
    (hr : (op.program fromStr s.world.client start).Reaches d (.ask (.callTool conn call) next))
    {text : String} (refusal : IsRefusal fromStr text call) (now : Instant)
    {rest : Dialogue Ask Ask.Answer} {outcome : Outcome} {after : VaultClient}
    (hrest : (next (.ok (text, true), now)).Reaches rest (.ret (outcome, after))) :
    Undisturbed fromStr conn op.path s.world.client after ↔
      Revalidating op s.world.client d ∨
        (call.isWrite = true ∧ MentionsConflict text ∧ (∃ body, fromStr text = .ok body) ∧
          s.world.client.needsRevalidation = false ∧ ReadsAgain fromStr conn op.path rest) :=
  undisturbed_iff (run_wellFormed h idle) online hr refusal now hrest

/-- The refusal of the first write after an outage leaves the client where it was. -/
theorem refusal_undisturbed_iff_sample :
    ∃ s next outcome after,
      (machine Sample.fromStr).run (init Sample.vault) Sample.backOnline = some s ∧
      (Op.write "other.md" "third").program Sample.fromStr s.world.client 5 =
        .ask (.callTool 1 (.vaultRead "other.md")) next ∧
      next (.ok (Sample.notFound, true), 6) = .ret (outcome, after) ∧
      Undisturbed Sample.fromStr 1 "other.md" s.world.client after := by
  obtain ⟨s, next, outcome, after, hrun, hidle, hon, hreval, hask, hend⟩ :
      ∃ s next outcome after,
        (machine Sample.fromStr).run (init Sample.vault) Sample.backOnline = some s ∧
        s.running = none ∧ s.world.client.offline = false ∧
        s.world.client.needsRevalidation = true ∧
        (Op.write "other.md" "third").program Sample.fromStr s.world.client 5 =
          .ask (.callTool 1 (.vaultRead "other.md")) next ∧
        next (.ok (Sample.notFound, true), 6) = .ret (outcome, after) :=
    ⟨_, _, _, _, rfl, rfl, rfl, rfl, rfl, rfl⟩
  have hr : ((Op.write "other.md" "third").program Sample.fromStr s.world.client 5).Reaches []
      (.ask (.callTool 1 (.vaultRead "other.md")) next) := by
    rw [hask]
    exact .here _
  have hrest : (next (.ok (Sample.notFound, true), 6)).Reaches [] (.ret (outcome, after)) := by
    rw [hend]
    exact .here _
  have refusal : IsRefusal Sample.fromStr Sample.notFound (.vaultRead "other.md") := trivial
  exact ⟨s, next, outcome, after, hrun, hask, hend,
    (refusal_undisturbed_iff hrun hidle hon hr refusal 6 hrest).mpr
      (.inl ⟨⟨_, _, rfl⟩, hreval, rfl⟩)⟩

/-- A read of a missing note takes a client offline that has just reached its server. -/
theorem refused_read_disturbs :
    ∃ s next outcome after,
      (machine Sample.fromStr).run (init Sample.vault) Sample.firstRead = some s ∧
      s.running = none ∧ s.world.client.offline = false ∧
      (Op.read "other.md").program Sample.fromStr s.world.client 5 =
        .ask (.callTool 0 (.vaultRead "other.md")) next ∧
      IsRefusal Sample.fromStr Sample.notFound (.vaultRead "other.md") ∧
      next (.ok (Sample.notFound, true), 6) = .ret (outcome, after) ∧
      ¬ Undisturbed Sample.fromStr 0 "other.md" s.world.client after := by
  obtain ⟨s, next, outcome, after, hrun, hidle, hon, hask, hend, hdown⟩ :
      ∃ s next outcome after,
        (machine Sample.fromStr).run (init Sample.vault) Sample.firstRead = some s ∧
        s.running = none ∧ s.world.client.offline = false ∧
        (Op.read "other.md").program Sample.fromStr s.world.client 5 =
          .ask (.callTool 0 (.vaultRead "other.md")) next ∧
        next (.ok (Sample.notFound, true), 6) = .ret (outcome, after) ∧ after.Down :=
    ⟨_, _, _, _, rfl, rfl, rfl, rfl, rfl, rfl, rfl⟩
  exact ⟨s, next, outcome, after, hrun, hidle, hon, hask, trivial, hend, not_undisturbed_of_down hdown⟩

end Federation

end GooseClaw
