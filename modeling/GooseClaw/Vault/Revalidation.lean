import GooseClaw.Vault.Server

/-!
# Revalidation after an outage

One flag of the client is to make sure that the first write over a connection made after an outage offers
a version the server has just confirmed over that connection. The flag is set when the connection is made,
by a read or by a write, and taken back by a write whose revalidation succeeded. Between the two lie any
number of calls and of failed revalidations, and each of them may end the connection instead.

`Watch` says, phase by phase, what the flag and the journal have to do with each other while such a
connection has carried no write, and `Guarded` makes an invariant of it. `first_write_revalidated` is
what it comes to on the wire.
-/

namespace GooseClaw

open Found VaultClient

/-! ## Connections made after an outage -/

/-- The entry ends the watch over a connection: another one came up, or a `vault_write` went on the
wire. -/
def Entry.endsWatch : Entry → Bool
  | .connected _ (.ok _) => true
  | .sent _ _ _ call => call.isWrite
  | _ => false

/-- The journal ends in `K` behind the entry that `conn` came up. The call that made it had begun
offline, and since then no other connection came up and no `vault_write` went on the wire. -/
structure Unwritten (J : List Entry) (conn : ConnId) (K : List Entry) : Prop where
  afterOutage : ∃ J₁ n op before, J = J₁ ++ .connected n (.ok conn) :: K ∧
    .called n op before ∈ J₁ ∧ before.offline = true
  quiet : ∀ e ∈ K, e.endsWatch = false

/-- In `K`, call `n` sent a `vault_read` of the note over `conn`, and its answer confirmed the note with
the version `expected`. -/
def Revalidated (fromStr : String → Except String Json) (n : Nat) (conn : ConnId) (path : String)
    (expected : Option String) (K : List Entry) : Prop :=
  ∃ A B C rid reply time k,
    K = A ++ .sent n rid conn (.vaultRead path) ::
      (B ++ .answered n (some rid) (.vaultRead path) reply time :: C) ∧
    (Entry.answered n (some rid) (.vaultRead path) reply time).confirms fromStr = some (path, k) ∧
    k.version = expected

theorem Revalidated.snoc {fromStr : String → Except String Json} {n : Nat} {conn : ConnId}
    {path : String} {expected : Option String} {K : List Entry}
    (h : Revalidated fromStr n conn path expected K) (e : Entry) :
    Revalidated fromStr n conn path expected (K ++ [e]) := by
  obtain ⟨A, B, C, rid, reply, time, k, rfl, hk, hv⟩ := h
  exact ⟨A, B, C ++ [e], rid, reply, time, k,
    by simp only [List.append_assoc, List.cons_append], hk, hv⟩

/-- A connection that is watched after one more entry has just come up, or was watched before. -/
theorem Unwritten.snoc_cases {J K : List Entry} {e : Entry} {conn : ConnId}
    (h : Unwritten (J ++ [e]) conn K) :
    (K = [] ∧ ∃ n op before, e = .connected n (.ok conn) ∧ .called n op before ∈ J ∧
      before.offline = true) ∨
    ∃ K', K = K' ++ [e] ∧ Unwritten J conn K' ∧ e.endsWatch = false := by
  obtain ⟨⟨J₁, n, op, before, hJ, hcalled, hoff⟩, hquiet⟩ := h
  rcases snoc_eq_append_cons hJ with ⟨K', rfl, hJ'⟩ | ⟨rfl, rfl, he⟩
  · refine .inr ⟨K', rfl, ⟨⟨J₁, n, op, before, hJ', hcalled, hoff⟩, ?_⟩, ?_⟩
    · exact fun e' he' => hquiet e' (List.mem_append_left _ he')
    · exact hquiet e (List.mem_append_right _ (List.mem_singleton_self e))
  · exact .inl ⟨rfl, n, op, before, he, hcalled, hoff⟩

/-- An entry that is no connection leaves the watched connections as they were. -/
theorem Unwritten.of_snoc {J K : List Entry} {e : Entry} {conn : ConnId}
    (h : Unwritten (J ++ [e]) conn K) (he : ∀ n answer, e ≠ .connected n answer) :
    ∃ K', K = K' ++ [e] ∧ Unwritten J conn K' ∧ e.endsWatch = false := by
  rcases h.snoc_cases with ⟨-, n, op, before, heq, -⟩ | hold
  · exact absurd heq (he n _)
  · exact hold

/-! ## What the flag has to do with the journal -/

/-- The client is offline, or holds the connection and knows that it has to revalidate. -/
def VaultClient.Armed (c : VaultClient) (conn : ConnId) : Prop :=
  c.offline = true ∨ c.conn = some conn ∧ c.needsRevalidation = true

/-- What call `n` is about in a phase, while `conn` is watched and `K` happened since it came up. -/
def Watch (fromStr : String → Except String Json) (n : Nat) (request : Option Nat) (conn : ConnId)
    (K : List Entry) : Phase → Prop
  | .reconnecting _ _ => True
  | .fetching .read _ conn' c => conn' = conn ∧ c.needsRevalidation = true
  | .fetching (.revalidate _) path conn' c => conn' = conn ∧ c.needsRevalidation = true ∧
    ∀ rid, request = some rid → ∃ A B, K = A ++ .sent n rid conn (.vaultRead path) :: B
  | .writing path _ expected conn' _ => conn' = conn ∧ request = none ∧
    Revalidated fromStr n conn path expected K
  | .done _ c => c.Armed conn
  -- a first connection, a conflict's re-read: no connection is watched then
  | .dialing _ _ _ => False
  | .fetching .reread _ _ _ => False
  | .dialingWrite _ _ _ _ => False

/-- A call reconnects because the client is offline, and dials only when it began online. -/
def Began (before : VaultClient) : Phase → Prop
  | .reconnecting _ c => c.offline = true
  | .dialing _ _ _ => before.offline = false
  | _ => True

/-- The call in progress and every watched connection. -/
structure Guard (fromStr : String → Except String Json) (J : List Entry) (n : Nat)
    (before : VaultClient) (request : Option Nat) (φ : Phase) : Prop where
  began : Began before φ
  watch : ∀ conn K, Unwritten J conn K → Watch fromStr n request conn K φ

/-- A `vault_write` that is the first over a watched connection goes over it, and its call has
revalidated. -/
def WriteRule (fromStr : String → Except String Json) (J : List Entry) (e : Entry) : Prop :=
  ∀ n rid conn' path content expected,
    e = .sent n rid conn' (.vaultWrite path content expected) →
      ∀ conn K, Unwritten J conn K →
        conn' = conn ∧ Revalidated fromStr n conn path expected K

/-- The invariant. -/
structure Guarded (fromStr : String → Except String Json) (s : Federation Phase) : Prop where
  rule : Every (WriteRule fromStr) s.world.journal
  state : match s.running with
    | none => ∀ conn K, Unwritten s.world.journal conn K → s.world.client.Armed conn
    | some r => Guard fromStr s.world.journal s.world.calls s.world.client r.request r.process

variable {fromStr : String → Except String Json}

theorem Watch.snoc {n : Nat} {request : Option Nat} {conn : ConnId} {K : List Entry} {φ : Phase}
    (h : Watch fromStr n request conn K φ) (e : Entry) :
    Watch fromStr n request conn (K ++ [e]) φ := by
  cases φ with
  | fetching why path conn' c =>
    cases why with
    | revalidate content =>
      obtain ⟨hconn, hreval, hsent⟩ := h
      refine ⟨hconn, hreval, fun rid hrid => ?_⟩
      obtain ⟨A, B, rfl⟩ := hsent rid hrid
      exact ⟨A, B ++ [e], by rw [List.append_assoc, List.cons_append]⟩
    | _ => exact h
  | writing path content expected conn' c => exact ⟨h.1, h.2.1, h.2.2.snoc e⟩
  | _ => exact h

/-! ## Phases a call goes on to -/

section

variable {n : Nat} {op : Op} {conn : ConnId} {K : List Entry} {c before : VaultClient}
  {now : Instant}

/-- A call goes to work over the watched connection. -/
theorem watch_online (hlive : c.Live conn) (hreval : c.needsRevalidation = true) :
    Watch fromStr n none conn K (Phase.online op now c) := by
  have hcases := Phase.online_cases op now c
  generalize Phase.online op now c = φ at hcases ⊢
  cases hcases with
  | hit hfresh => exact .inr ⟨hlive.1, hreval⟩
  | read hfresh =>
    rw [Phase.fetch_live _ _ hlive]
    exact ⟨rfl, hreval⟩
  | revalidate =>
    rw [Phase.fetch_live _ _ hlive]
    refine ⟨rfl, hreval, ?_⟩
    intro rid hrid
    cases hrid
  | submit hnot => cases hreval.symm.trans hnot

theorem watch_start (h : c.Armed conn) : Watch fromStr n none conn K (Phase.start op c now) := by
  unfold Phase.start
  cases hoff : c.offline with
  | true => exact trivial
  | false =>
    rcases h with h | ⟨hconn, hreval⟩
    · rw [hoff] at h
      cases h
    · exact watch_online ⟨hconn, hoff⟩ hreval

theorem watch_offline (h : c.offline = true) :
    Watch fromStr n none conn K (Phase.offline op c) := by
  cases op with
  | read path =>
    rw [Phase.offline, Phase.readOffline_eq]
    exact .inl h
  | write path content => exact .inl h

/-- Only a client that never connected dials. -/
theorem began_online (hon : c.offline = false)
    (hdial : c.conn = none → before.offline = false) :
    Began before (Phase.online op now c) := by
  have hfetch : ∀ why path, Began before (Phase.fetch why path c) := by
    intro why path
    cases hconn : c.conn with
    | some conn =>
      rw [Phase.fetch_live _ _ ⟨hconn, hon⟩]
      exact trivial
    | none =>
      simp only [Phase.fetch, hon, hconn]
      exact hdial hconn
  have hcases := Phase.online_cases op now c
  generalize Phase.online op now c = φ at hcases ⊢
  cases hcases with
  | hit => exact trivial
  | read => exact hfetch _ _
  | revalidate => exact hfetch _ _
  | submit =>
    unfold Phase.submit Phase.send
    split
    · exact trivial
    · split <;> exact trivial

theorem began_start : Began c (Phase.start op c now) := by
  unfold Phase.start
  cases hoff : c.offline with
  | true => exact hoff
  | false => exact began_online hoff fun _ => hoff

theorem began_offline : Began before (Phase.offline op c) := by
  cases op with
  | read path =>
    rw [Phase.offline, Phase.readOffline_eq]
    exact trivial
  | write path content => exact trivial

end

/-! ## Every step keeps the invariant -/

namespace Federation

variable {w : World} {φ : Phase}

/-- Entries that put nothing on the wire have nothing to keep. -/
theorem writeRule_of_ne {J : List Entry} {e : Entry}
    (h : ∀ n rid conn call, e ≠ .sent n rid conn call) : WriteRule fromStr J e :=
  fun n rid conn' _ _ _ he => absurd he (h n rid conn' _)

/-- A call that was started or answered goes on, or returns. -/
theorem guarded_proceed {op : Op} (rule : Every (WriteRule fromStr) w.journal)
    (h : Guard fromStr w.journal w.calls w.client none φ) :
    Guarded fromStr (proceed (Phase.view fromStr) w op φ) := by
  cases φ with
  | done outcome c =>
    refine ⟨every_snoc.mpr ⟨rule, writeRule_of_ne nofun⟩, ?_⟩
    intro conn K hun
    obtain ⟨K', -, hun', -⟩ := hun.of_snoc nofun
    exact h.watch conn K' hun'
  | _ => exact ⟨rule, h⟩

theorem guarded_init (vault : String → Option Note) : Guarded fromStr (init vault) := by
  refine ⟨every_nil _, ?_⟩
  rintro conn K ⟨⟨J₁, n, op, before, hJ, -⟩, -⟩
  exact absurd hJ.symm (List.append_ne_nil_of_right_ne_nil J₁ nofun)

theorem guarded_call {op : Op} (h : Guarded fromStr ⟨w, none⟩) :
    Guarded fromStr
      (proceed (Phase.view fromStr) (w.began op) op (Phase.start op w.client w.time)) := by
  refine guarded_proceed (every_snoc.mpr ⟨h.rule, writeRule_of_ne nofun⟩) ⟨began_start, ?_⟩
  intro conn K hun
  obtain ⟨K', -, hun', -⟩ := hun.of_snoc nofun
  exact watch_start (h.state conn K' hun')

section InCall

variable {r : Running Phase}

theorem guarded_connected {answer : Except ConnectError ConnId}
    {next : Ask.Answer .connect → Phase} (hinv : Inv fromStr ⟨w, some r⟩)
    (h : Guarded fromStr ⟨w, some r⟩)
    (hv : Phase.view fromStr r.process = .waiting .connect next) :
    Guarded fromStr (proceed (Phase.view fromStr) (w.record (.connected w.calls answer)) r.op
      (next (answer, w.time))) := by
  have hcall : InCall fromStr w.journal w.calls w.client r := hinv.state
  have hguard : Guard fromStr w.journal w.calls w.client r.request r.process := h.state
  have hlaw : Lawful fromStr w.journal := ⟨hinv.ledger.laws, hinv.settled⟩
  refine guarded_proceed (every_snoc.mpr ⟨h.rule, writeRule_of_ne nofun⟩) ?_
  obtain ⟨op, process, request⟩ := r
  have hplace : Place w.calls w.client w.journal op request process := hcall.place
  cases hplace with
  | @reconnecting _ c =>
    cases hv
    have hoff : c.offline = true := hguard.began
    cases answer with
    | ok conn =>
      have hlive := live_connected c conn
      refine ⟨began_online rfl nofun, ?_⟩
      intro conn' K hun
      rcases hun.snoc_cases with ⟨-, n, op', before, he, -⟩ | ⟨K', -, -, hends⟩
      · cases he
        refine watch_online hlive ?_
        rw [connected, hoff, Bool.or_true]
      · cases hends
    | error e => exact ⟨began_offline, fun conn K _ => watch_offline rfl⟩
  | @dialing path c =>
    cases hv
    cases answer with
    | ok conn =>
      refine ⟨trivial, ?_⟩
      intro conn' K hun
      -- the call began online, so the connection it makes is not watched
      rcases hun.snoc_cases with ⟨-, n, op', before, he, hcalled, hoff⟩ | ⟨K', -, -, hends⟩
      · cases he
        obtain ⟨-, rfl⟩ := hlaw.called_unique hcalled hcall.called
        rw [show w.client.offline = false from hguard.began] at hoff
        cases hoff
      · cases hends
    | error e =>
      have hfailed : Phase.fetchFailed .read (connectErr e) path c =
          Phase.readOffline path (connectErr e) c.markOfflineOf := rfl
      simp only [hfailed, Phase.readOffline_eq]
      exact ⟨trivial, fun conn K _ => .inl rfl⟩
  | _ => cases hv

theorem guarded_send {op : Op} {conn : ConnId} {call : ToolCall}
    {next : Ask.Answer (.callTool conn call) → Phase}
    (hinv : Inv fromStr ⟨w, some ⟨op, φ, none⟩⟩) (h : Guarded fromStr ⟨w, some ⟨op, φ, none⟩⟩)
    (hv : Phase.view fromStr φ = .waiting (.callTool conn call) next) :
    Guarded fromStr ⟨w.sent conn call, some ⟨op, φ, some w.requests⟩⟩ := by
  have hcall : InCall fromStr w.journal w.calls w.client ⟨op, φ, none⟩ := hinv.state
  obtain ⟨hbegan, hwatch⟩ : Guard fromStr w.journal w.calls w.client none φ := h.state
  have hplace : Place w.calls w.client w.journal op none φ := hcall.place
  have hread : ∀ path, call = .vaultRead path →
      WriteRule fromStr w.journal (.sent w.calls w.requests conn call) := by
    rintro path rfl n rid conn' p content expected he
    cases he
  cases hplace with
  | reconnecting => cases hv
  | dialing => cases hv
  | reading hlive =>
    cases hv
    refine ⟨every_snoc.mpr ⟨h.rule, hread _ rfl⟩, trivial, ?_⟩
    intro conn' K hun
    obtain ⟨K', -, hun', -⟩ := hun.of_snoc nofun
    exact hwatch conn' K' hun'
  | revalidating hlive hnone =>
    cases hv
    refine ⟨every_snoc.mpr ⟨h.rule, hread _ rfl⟩, trivial, ?_⟩
    intro conn' K hun
    obtain ⟨K', rfl, hun', -⟩ := hun.of_snoc nofun
    obtain ⟨rfl, hreval, -⟩ := hwatch conn' K' hun'
    refine ⟨rfl, hreval, ?_⟩
    rintro rid ⟨⟩
    exact ⟨K', [], rfl⟩
  | rereading hlive hwrites hrefused =>
    cases hv
    refine ⟨every_snoc.mpr ⟨h.rule, hread _ rfl⟩, trivial, ?_⟩
    intro conn' K hun
    obtain ⟨K', -, hun', -⟩ := hun.of_snoc nofun
    exact hwatch conn' K' hun'
  | writing hlive hk hwrites =>
    cases hv
    refine ⟨every_snoc.mpr ⟨h.rule, ?_⟩, trivial, ?_⟩
    · rintro n rid conn' path content expected ⟨⟩ conn'' K hun
      obtain ⟨hconn, -, hreval⟩ := hwatch conn'' K hun
      exact ⟨hconn, hreval⟩
    · -- the write ends the watch
      intro conn' K hun
      obtain ⟨K', -, -, hends⟩ := hun.of_snoc nofun
      cases hends

theorem guarded_answer {reply : ToolReply} {conn : ConnId} {call : ToolCall}
    {next : Ask.Answer (.callTool conn call) → Phase} (hinv : Inv fromStr ⟨w, some r⟩)
    (h : Guarded fromStr ⟨w, some r⟩)
    (hv : Phase.view fromStr r.process = .waiting (.callTool conn call) next)
    (hcan : canArrive r.request reply = true) :
    Guarded fromStr (proceed (Phase.view fromStr)
      (w.record (.answered w.calls r.request call reply w.time)) r.op (next (reply, w.time))) := by
  have hcall : InCall fromStr w.journal w.calls w.client r := hinv.state
  have hguard : Guard fromStr w.journal w.calls w.client r.request r.process := h.state
  refine guarded_proceed (every_snoc.mpr ⟨h.rule, writeRule_of_ne nofun⟩) ?_
  obtain ⟨op, process, request⟩ := r
  have hplace : Place w.calls w.client w.journal op request process := hcall.place
  have hwatch : ∀ conn' K, Unwritten (w.journal ++ [.answered w.calls request call reply w.time])
      conn' K → ∃ K', K = K' ++ [.answered w.calls request call reply w.time] ∧
        Watch fromStr w.calls request conn' K' process := by
    intro conn' K hun
    obtain ⟨K', hK, hun', -⟩ := hun.of_snoc nofun
    exact ⟨K', hK, hguard.watch conn' K' hun'⟩
  cases hplace with
  | reconnecting => cases hv
  | dialing => cases hv
  | @reading path _ c _ hlive =>
    cases hv
    rcases Phase.readAnswered_cases fromStr .read path c w.time reply w.calls request with
      ⟨k, -, -, heq⟩ | ⟨e, -, heq, -, -⟩
    · simp only [heq, Phase.fetched]
      refine ⟨trivial, fun conn' K hun => ?_⟩
      obtain ⟨K', -, rfl, hreval⟩ := hwatch conn' K hun
      exact .inr ⟨hlive.1, hreval⟩
    · simp only [heq, Phase.fetchFailed, Phase.readOffline_eq]
      exact ⟨trivial, fun conn' K _ => .inl rfl⟩
  | @revalidating path content _ c _ hlive hnone =>
    cases hv
    rcases Phase.readAnswered_cases fromStr (.revalidate content) path c w.time reply w.calls
      request with ⟨k, hk, -, heq⟩ | ⟨e, -, heq, -, -⟩
    · -- the write offers the version that was just confirmed
      have hsubmit : Phase.fetched (.revalidate content) ⟨path, k.content, k.version, false⟩ path
          (Phase.learned c path k) = .writing path content k.version conn
            { Phase.learned c path k with needsRevalidation := false } := by
        simp only [Phase.fetched, Phase.submit, Phase.learned, Cache.insert_same]
        exact Phase.send_live _ _ _ hlive
      simp only [heq, hsubmit]
      refine ⟨trivial, fun conn' K hun => ?_⟩
      obtain ⟨K', rfl, rfl, -, hsent⟩ := hwatch conn' K hun
      obtain ⟨-, text, body, rfl, -⟩ := Entry.of_confirms_read hk
      obtain ⟨rid, rfl⟩ := Option.isSome_iff_exists.mp hcan
      obtain ⟨A, B, rfl⟩ := hsent rid rfl
      refine ⟨rfl, rfl, A, B, [], rid, _, w.time, k, ?_, hk, rfl⟩
      rw [List.append_assoc, List.cons_append]
      rfl
    · simp only [heq, Phase.fetchFailed]
      refine ⟨trivial, fun conn' K hun => ?_⟩
      obtain ⟨K', -, rfl, hreval, -⟩ := hwatch conn' K hun
      exact .inr ⟨hlive.1, hreval⟩
  | @rereading path content _ _ _ _ _ c _ hlive hwrites hrefused =>
    cases hv
    refine ⟨?_, fun conn' K hun => ?_⟩
    · rcases Phase.readAnswered_cases fromStr .reread path c w.time reply w.calls request with
        ⟨k, -, -, heq⟩ | ⟨e, -, heq, -, -⟩
      · simp only [heq]
        exact trivial
      · simp only [heq, Phase.fetchFailed, Phase.writeFailed_eq]
        exact trivial
    · obtain ⟨K', -, hfalse⟩ := hwatch conn' K hun
      exact hfalse.elim
  | @writing path content k _ c _ hlive hk hwrites =>
    cases hv
    refine ⟨?_, fun conn' K hun => ?_⟩
    · rcases Phase.writeAnswered_cases fromStr path content k.version c w.time reply w.calls request
        with ⟨v, -, heq⟩ | ⟨text, -, -, -, heq⟩ | ⟨e, -, -, heq, -, -⟩
      · simp only [heq]
        exact trivial
      · simp only [heq, Phase.fetch_live _ _ (hlive.discarded path)]
        exact trivial
      · simp only [heq, Phase.writeFailed_eq]
        exact trivial
    · -- the write never went on the wire, so only the failure to send it can arrive
      obtain ⟨K', -, -, rfl, -⟩ := hwatch conn' K hun
      cases reply with
      | ok r => cases hcan
      | error e =>
        simp only [Phase.writeAnswered, Phase.writeFailed_eq]
        exact .inl rfl

end InCall

/-- An entry of the server or of the human changes nothing. -/
theorem guarded_elsewhere {e : Entry} {w' : World} {running : Option (Running Phase)}
    (h : Guarded fromStr ⟨w, running⟩) (hj : w'.journal = w.journal ++ [e])
    (hcalls : w'.calls = w.calls) (hclient : w'.client = w.client) (hnone : e.callNo? = none) :
    Guarded fromStr ⟨w', running⟩ := by
  have hsent : ∀ n rid conn call, e ≠ .sent n rid conn call := by
    rintro n rid conn call rfl
    cases hnone
  have hconn : ∀ n answer, e ≠ .connected n answer := by
    rintro n answer rfl
    cases hnone
  refine ⟨?_, ?_⟩
  · show Every (WriteRule fromStr) w'.journal
    rw [hj]
    exact every_snoc.mpr ⟨h.rule, writeRule_of_ne hsent⟩
  · cases running with
    | none =>
      show ∀ conn K, Unwritten w'.journal conn K → w'.client.Armed conn
      rw [hj, hclient]
      intro conn K hun
      obtain ⟨K', -, hun', -⟩ := hun.of_snoc hconn
      exact h.state conn K' hun'
    | some r =>
      obtain ⟨hbegan, hwatch⟩ : Guard fromStr w.journal w.calls w.client r.request r.process :=
        h.state
      show Guard fromStr w'.journal w'.calls w'.client r.request r.process
      rw [hj, hcalls, hclient]
      refine ⟨hbegan, fun conn K hun => ?_⟩
      obtain ⟨K', rfl, hun', -⟩ := hun.of_snoc hconn
      exact (hwatch conn K' hun').snoc e

/-- **Every step keeps the invariant.** -/
theorem guarded_step {s s' : Federation Phase} {e : Event} (hinv : Inv fromStr s)
    (h : Guarded fromStr s) (hs : (phases fromStr).step s e = some s') : Guarded fromStr s' := by
  obtain ⟨w, running⟩ := s
  cases step_moves hs with
  | call hrun =>
    obtain rfl : running = none := hrun
    exact guarded_call h
  | connected hrun hv =>
    obtain rfl := hrun
    exact guarded_connected hinv h hv
  | @send r _ _ _ hrun hv hreq =>
    obtain rfl := hrun
    obtain ⟨op, φ, request⟩ := r
    obtain rfl : request = none := hreq
    exact guarded_send hinv h hv
  | answer hrun hv hcan =>
    obtain rfl := hrun
    exact guarded_answer hinv h hv hcan
  | serve => exact guarded_elsewhere h rfl rfl rfl rfl
  | edit => exact guarded_elsewhere h rfl rfl rfl rfl
  | tick => exact ⟨h.rule, h.state⟩

/-- **The first write after an outage is revalidated.** In every run, when a connection came up in a
call that had begun offline, the first `vault_write` that goes on the wire before another connection
comes up goes over it. The write's own call has read the note over this connection since it came up,
and offers the version that read returned. -/
theorem first_write_revalidated {vault : String → Option Note} {tr : List Event}
    {s : Federation (Program Ask Ask.Answer (Outcome × VaultClient))}
    (h : (machine fromStr).run (init vault) tr = some s)
    {J J' K : List Entry} {n rid : Nat} {conn conn' : ConnId} {path content : String}
    {expected : Option String}
    (hs : s.world.journal = J ++ .sent n rid conn' (.vaultWrite path content expected) :: J')
    (hunwritten : Unwritten J conn K) :
    conn' = conn ∧ (∃ before, .called n (.write path content) before ∈ J) ∧
      Revalidated fromStr n conn path expected K := by
  obtain ⟨t, ht, hworld⟩ := run_phases h
  have hinv : Inv fromStr t ∧ Guarded fromStr t :=
    (phases fromStr).history (P := fun _ s => Inv fromStr s ∧ Guarded fromStr s)
      ⟨inv_init vault, guarded_init vault⟩
      (fun _ _ _ _ _ hinv hstep => ⟨inv_step hinv.1 hstep, guarded_step hinv.1 hinv.2 hstep⟩) ht
  obtain ⟨hconn, hreval⟩ :=
    hinv.2.rule J _ J' (hworld ▸ hs) n rid conn' path content expected rfl conn K hunwritten
  have hrule := (run_lawful h).rule hs
  obtain ⟨hcalled, -⟩ := hrule.2.2 path content expected rfl
  exact ⟨hconn, hcalled, hreval⟩

/-- A run whose second call loses its connection, and whose third writes. -/
def outageEvents : List Event :=
  Sample.firstRead ++ Sample.lostRead ++ .call (.write Sample.path "third") ::
    .connected (.ok 1) :: Sample.exchange 1 (Sample.shown "first" "v1") none ++
      Sample.exchange 2 (Sample.accepted "v2") (some "v2")

/-- The write of the run was revalidated over the new connection. -/
theorem first_write_revalidated_sample :
    ∃ s J J' K, (machine Sample.fromStr).run (init Sample.vault) outageEvents = some s ∧
      s.world.journal =
        J ++ .sent 3 2 1 (.vaultWrite Sample.path "third" (some "v1")) :: J' ∧
      Unwritten J 1 K ∧ Revalidated Sample.fromStr 3 1 Sample.path (some "v1") K := by
  obtain ⟨s, J, J', K, J₁, op, before, hrun, hs, hJ, hcalled, hoff, hquiet⟩ :
      ∃ s J J' K J₁ op before,
        (machine Sample.fromStr).run (init Sample.vault) outageEvents = some s ∧
        s.world.journal =
          J ++ .sent 3 2 1 (.vaultWrite Sample.path "third" (some "v1")) :: J' ∧
        J = J₁ ++ .connected 3 (.ok 1) :: K ∧ .called 3 op before ∈ J₁ ∧
        before.offline = true ∧ (K.all fun e => !e.endsWatch) = true :=
    ⟨_, [_, _, _, _, _, _, _, _, _, _, _, _, _, _], [_, _, _], [_, _, _],
      [_, _, _, _, _, _, _, _, _, _], _, _, rfl, rfl, rfl, List.mem_of_getElem? (i := 9) rfl,
      rfl, rfl⟩
  have hunwritten : Unwritten J 1 K := by
    refine ⟨⟨J₁, 3, op, before, hJ, hcalled, hoff⟩, fun e he => ?_⟩
    simpa using List.all_eq_true.mp hquiet e he
  exact ⟨s, J, J', K, hrun, hs, hunwritten, (first_write_revalidated hrun hs hunwritten).2.2⟩

end Federation

end GooseClaw
