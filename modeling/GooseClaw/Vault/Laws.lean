import GooseClaw.Vault.Ending

/-!
# The laws of the journal

What holds of every entry of every journal, in any order of calls, answers, losses, servings and
edits: what a request on the wire may carry and when, what an answer answers, that a request is served
once, and that a call returns in one of the ways `Ending` lists. `Law` states it entry by entry, of
the entries before. `Inv` is the invariant of the federation that carries it, and `run_lawful` brings
it to the runs of the source's client.
-/

namespace GooseClaw

open Found VaultClient

section

variable (fromStr : String → Except String Json)

/-- The journal does not stop at an entry that ends its call. -/
def Settled (J : List Entry) : Prop := ∀ J₀ last, J = J₀ ++ [last] → ¬ last.Closes fromStr J₀

/-- Call `n` has not returned. -/
def Unreturned (n : Nat) (J : List Entry) : Prop :=
  ∀ op outcome after time, Entry.returned n op outcome after time ∉ J

/-- What an entry may be, after the journal `J`. -/
def Rule (J : List Entry) : Entry → Prop
  | .called n _ _ => ∀ e ∈ J, e.callNo? ≠ some n
  | .connected _ _ => True
  | .sent n rid _ call =>
    Unreturned n J ∧ (∀ m conn' call', Entry.sent m rid conn' call' ∉ J) ∧
      ∀ path content expected, call = .vaultWrite path content expected →
        (∃ before, Entry.called n (.write path content) before ∈ J) ∧ writesOf n J = [] ∧
          ∃ k, cacheOf fromStr J path = some k ∧ k.version = expected
  | .answered n rid call reply _ =>
    (∀ r, rid = some r → ∃ conn, Entry.sent n r conn call ∈ J) ∧
      ∀ r, reply = .ok r → ∃ wid, rid = some wid
  | .served rid call _ _ _ =>
    (∃ n conn, Entry.sent n rid conn call ∈ J) ∧
      ∀ call' note reply wrote, Entry.served rid call' note reply wrote ∉ J
  | .returned n op outcome after time =>
    ∃ J₀ last before, J = J₀ ++ [last] ∧ .called n op before ∈ J ∧
      after.cache = cacheOf fromStr J ∧ Ending fromStr n before J₀ last time op outcome after
  | .edited _ _ => True

/-- The rule, and that an entry that ends its call is followed by the return. -/
def Law (J : List Entry) (e : Entry) : Prop :=
  (Settled fromStr J ∨ ∃ n op outcome after time, e = .returned n op outcome after time) ∧
    Rule fromStr J e

/-- A journal that may be found between two steps. -/
structure Lawful (J : List Entry) : Prop where
  laws : Every (Law fromStr) J
  settled : Settled fromStr J

/-! ## The invariant -/

/-- The journal keeps the laws, and the counters and the wire go with it. -/
structure Ledger (J : List Entry) (calls requests : Nat) (inFlight : List (Nat × ToolCall)) :
    Prop where
  laws : Every (Law fromStr) J
  numbered : ∀ e ∈ J, ∀ n, e.callNo? = some n → n ≤ calls
  requested : ∀ {n rid conn call}, Entry.sent n rid conn call ∈ J → rid < requests
  flying : ∀ {rid call}, (rid, call) ∈ inFlight →
    (∃ n conn, Entry.sent n rid conn call ∈ J) ∧
      ∀ call' note reply wrote, Entry.served rid call' note reply wrote ∉ J

/-- The call in progress. -/
structure InCall (J : List Entry) (n : Nat) (before : VaultClient) (r : Running Phase) : Prop where
  called : .called n r.op before ∈ J
  unreturned : Unreturned n J
  place : Place n before J r.op r.request r.process
  cache : r.process.client.cache = cacheOf fromStr J
  sent : ∀ conn call next rid, Phase.view fromStr r.process = .waiting (.callTool conn call) next →
    r.request = some rid → .sent n rid conn call ∈ J

/-- The invariant of the federation. -/
structure Inv (s : Federation Phase) : Prop where
  ledger : Ledger fromStr s.world.journal s.world.calls s.world.requests s.world.inFlight
  settled : Settled fromStr s.world.journal
  state : match s.running with
    | none => s.world.client.cache = cacheOf fromStr s.world.journal ∧ s.world.client.WellFormed
    | some r => InCall fromStr s.world.journal s.world.calls s.world.client r

end

variable {fromStr : String → Except String Json}

theorem settled_snoc {J : List Entry} {e : Entry} :
    Settled fromStr (J ++ [e]) ↔ ¬ e.Closes fromStr J := by
  constructor
  · intro h
    exact h J e rfl
  · intro h J₀ last heq
    obtain ⟨rfl, hlast⟩ := List.append_inj' heq rfl
    cases hlast
    exact h

theorem settled_nil : Settled fromStr [] :=
  fun _ _ h => absurd h.symm (List.append_ne_nil_of_right_ne_nil _ nofun)

theorem Unreturned.snoc {n : Nat} {J : List Entry} {e : Entry} (h : Unreturned n J)
    (he : ∀ op outcome after time, e ≠ .returned n op outcome after time) :
    Unreturned n (J ++ [e]) := by
  intro op outcome after time hmem
  rcases mem_snoc.mp hmem with hold | hnew
  · exact h op outcome after time hold
  · exact he op outcome after time hnew.symm

/-! ## The ledger grows -/

/-- The entry is about a request on the wire. -/
def Entry.OfWire : Entry → Prop
  | .sent _ _ _ _ => True
  | .served _ _ _ _ _ => True
  | _ => False

namespace Ledger

variable {J : List Entry} {calls requests : Nat} {inFlight : List (Nat × ToolCall)}

theorem init : Ledger fromStr [] 0 0 [] where
  laws := every_nil _
  numbered := List.forall_mem_nil _
  requested h := absurd h List.not_mem_nil
  flying h := absurd h List.not_mem_nil

/-- An entry that is not about the wire. -/
theorem snoc (h : Ledger fromStr J calls requests inFlight) {e : Entry} {calls' : Nat}
    (law : Law fromStr J e) (hle : calls ≤ calls')
    (hn : ∀ n, e.callNo? = some n → n ≤ calls') (hwire : ¬ e.OfWire) :
    Ledger fromStr (J ++ [e]) calls' requests inFlight where
  laws := every_snoc.mpr ⟨h.laws, law⟩
  numbered := by
    intro e' he' n hn'
    rcases mem_snoc.mp he' with hold | rfl
    · exact Nat.le_trans (h.numbered e' hold n hn') hle
    · exact hn n hn'
  requested := by
    intro n rid conn call hmem
    rcases mem_snoc.mp hmem with hold | rfl
    · exact h.requested hold
    · exact absurd trivial hwire
  flying := by
    intro rid call hmem
    obtain ⟨⟨n, conn, hsent⟩, hserved⟩ := h.flying hmem
    refine ⟨⟨n, conn, List.mem_append_left _ hsent⟩, ?_⟩
    intro call' note reply wrote hs
    rcases mem_snoc.mp hs with hold | rfl
    · exact hserved call' note reply wrote hold
    · exact hwire trivial

/-- No request is served that was not sent. -/
theorem unserved (h : Ledger fromStr J calls requests inFlight) {call : ToolCall}
    {note : Option Note} {reply : ToolReply} {wrote : Option String} :
    Entry.served requests call note reply wrote ∉ J := by
  intro hmem
  obtain ⟨l, l', rfl⟩ := List.append_of_mem hmem
  obtain ⟨⟨n, conn, hsent⟩, -⟩ := (h.laws l _ l' rfl).2
  exact Nat.lt_irrefl _ (h.requested (List.mem_append_left _ hsent))

/-- A request goes on the wire. -/
theorem send (h : Ledger fromStr J calls requests inFlight) {n : Nat} {conn : ConnId}
    {call : ToolCall} (law : Law fromStr J (.sent n requests conn call)) (hn : n ≤ calls) :
    Ledger fromStr (J ++ [.sent n requests conn call]) calls (requests + 1)
      (inFlight ++ [(requests, call)]) where
  laws := every_snoc.mpr ⟨h.laws, law⟩
  numbered := by
    intro e' he' m hm
    rcases mem_snoc.mp he' with hold | rfl
    · exact h.numbered e' hold m hm
    · cases hm
      exact hn
  requested := by
    intro m rid conn' call' hmem
    rcases mem_snoc.mp hmem with hold | hnew
    · exact Nat.lt_succ_of_lt (h.requested hold)
    · cases hnew
      exact Nat.lt_succ_self _
  flying := by
    intro rid call' hmem
    rcases mem_snoc.mp hmem with hold | hnew
    · obtain ⟨⟨m, conn', hsent⟩, hserved⟩ := h.flying hold
      refine ⟨⟨m, conn', List.mem_append_left _ hsent⟩, ?_⟩
      intro c note reply wrote hs
      rcases mem_snoc.mp hs with hs | hs
      · exact hserved c note reply wrote hs
      · cases hs
    · cases hnew
      refine ⟨⟨n, conn, List.mem_concat_self⟩, ?_⟩
      intro c note reply wrote hs
      rcases mem_snoc.mp hs with hs | hs
      · exact h.unserved hs
      · cases hs

/-- The server takes up a request. -/
theorem serve (h : Ledger fromStr J calls requests inFlight) {rid : Nat} {call : ToolCall}
    {note : Option Note} {reply : ToolReply} {wrote : Option String}
    (law : Law fromStr J (.served rid call note reply wrote)) :
    Ledger fromStr (J ++ [.served rid call note reply wrote]) calls requests
      (inFlight.filter (·.1 ≠ rid)) where
  laws := every_snoc.mpr ⟨h.laws, law⟩
  numbered := by
    intro e' he' m hm
    rcases mem_snoc.mp he' with hold | rfl
    · exact h.numbered e' hold m hm
    · cases hm
  requested := by
    intro m rid' conn' call' hmem
    rcases mem_snoc.mp hmem with hold | hnew
    · exact h.requested hold
    · cases hnew
  flying := by
    intro rid' call' hmem
    obtain ⟨hmem, hne⟩ := List.mem_filter.mp hmem
    obtain ⟨⟨m, conn, hsent⟩, hserved⟩ := h.flying hmem
    refine ⟨⟨m, conn, List.mem_append_left _ hsent⟩, ?_⟩
    intro c note' reply' wrote' hs
    rcases mem_snoc.mp hs with hs | hs
    · exact hserved c note' reply' wrote' hs
    · cases hs
      exact of_decide_eq_true hne rfl

end Ledger

/-! ## Every step keeps the invariant -/

namespace Federation

variable {w : World} {op : Op} {φ : Phase} {J : List Entry} {last : Entry}

/-- A call that was started or answered goes on, or returns. -/
theorem inv_proceed (hj : w.journal = J ++ [last])
    (ledger : Ledger fromStr w.journal w.calls w.requests w.inFlight)
    (hcalled : .called w.calls op w.client ∈ w.journal) (hopen : Unreturned w.calls w.journal)
    (h : Onward fromStr w.calls w.client J last w.time op φ) :
    Inv fromStr (proceed (Phase.view fromStr) w op φ) := by
  obtain ⟨hcache, ⟨outcome, after, rfl, hwell, hending⟩ | ⟨hclose, hplace⟩⟩ := h
  · -- the call returns
    have hcache' : after.cache = cacheOf fromStr w.journal := hj ▸ hcache
    have law : Law fromStr w.journal (.returned w.calls op outcome after w.time) :=
      ⟨.inr ⟨_, _, _, _, _, rfl⟩, J, last, w.client, hj, hcalled, hcache', hending⟩
    refine ⟨ledger.snoc law (Nat.le_refl _) ?_ id, settled_snoc.mpr id, ?_, hwell⟩
    · intro n hn
      cases hn
      exact Nat.le_refl _
    · show after.cache = cacheOf fromStr (w.journal ++ [_])
      rw [cacheOf_quiet rfl rfl]
      exact hcache'
  · -- the call waits
    obtain ⟨q, next, hview⟩ : ∃ q next, Phase.view fromStr φ = .waiting q next := hplace.waits
    have hproceed : proceed (Phase.view fromStr) w op φ = ⟨w, some ⟨op, φ, none⟩⟩ := by
      simp only [proceed, hview]
    rw [hproceed]
    refine ⟨ledger, hj ▸ settled_snoc.mpr hclose, ?_⟩
    exact ⟨hcalled, hopen, hj ▸ hplace, hj ▸ hcache,
      fun _ _ _ _ _ h => absurd h.symm (Option.some_ne_none _)⟩

theorem inv_init (vault : String → Option Note) : Inv fromStr (init vault) :=
  ⟨.init, settled_nil, rfl, fun _ _ => ⟨rfl, rfl⟩⟩

theorem inv_call {op : Op} (h : Inv fromStr ⟨w, none⟩) :
    Inv fromStr
      (proceed (Phase.view fromStr) (w.began op) op (Phase.start op w.client w.time)) := by
  obtain ⟨ledger, settled, hcache, hwell⟩ := h
  have hnew : ∀ e ∈ w.journal, e.callNo? ≠ some (w.calls + 1) := by
    intro e he hn
    exact absurd (ledger.numbered e he _ hn) (Nat.not_succ_le_self _)
  have hopen : Unreturned (w.calls + 1) w.journal :=
    fun op outcome after time hmem => hnew _ hmem rfl
  have hj : (w.began op).journal = w.journal ++ [.called (w.calls + 1) op w.client] := rfl
  refine inv_proceed hj ?_ List.mem_concat_self (hopen.snoc ?_) ?_
  · refine ledger.snoc ⟨.inl settled, hnew⟩ (Nat.le_succ _) ?_ id
    intro n hn
    cases hn
    exact Nat.le_refl _
  · rintro _ _ _ _ ⟨⟩
  · exact onward_start hwell hcache (writesOf_eq_nil hnew)

section InCall

variable {r : Running Phase}

/-- An entry of the call in progress that is not about the wire leaves the call where it was. -/
theorem inv_reply {e : Entry} (h : Inv fromStr ⟨w, some r⟩) (rule : Rule fromStr w.journal e)
    (hn : e.callNo? = some w.calls) (hwire : ¬ e.OfWire)
    (hret : ∀ n op outcome after time, e ≠ .returned n op outcome after time)
    (hφ : Onward fromStr w.calls w.client w.journal e w.time r.op φ) :
    Inv fromStr (proceed (Phase.view fromStr) (w.record e) r.op φ) := by
  have hcall : InCall fromStr w.journal w.calls w.client r := h.state
  have hj : (w.record e).journal = w.journal ++ [e] := rfl
  refine inv_proceed hj ?_ (List.mem_append_left _ hcall.called)
    (hcall.unreturned.snoc (hret _)) hφ
  refine h.ledger.snoc ⟨.inl h.settled, rule⟩ (Nat.le_refl _) ?_ hwire
  intro n hn'
  rw [hn] at hn'
  cases hn'
  exact Nat.le_refl _

theorem inv_connected {answer : Except ConnectError ConnId} {next : Ask.Answer .connect → Phase}
    (h : Inv fromStr ⟨w, some r⟩)
    (hv : Phase.view fromStr r.process = .waiting .connect next) :
    Inv fromStr (proceed (Phase.view fromStr) (w.record (.connected w.calls answer)) r.op
      (next (answer, w.time))) := by
  have hcall : InCall fromStr w.journal w.calls w.client r := h.state
  refine inv_reply h trivial rfl id (by rintro _ _ _ _ _ ⟨⟩) ?_
  obtain ⟨op, process, request⟩ := r
  have hcache : process.client.cache = cacheOf fromStr w.journal := hcall.cache
  have hplace : Place w.calls w.client w.journal op request process := hcall.place
  cases hplace with
  | reconnecting hbefore hnone =>
    cases hv
    exact onward_reconnected answer hbefore hcache hnone
  | dialing => exact onward_dialed answer hv hcache
  | _ => cases hv

theorem inv_answer {reply : ToolReply} {conn : ConnId} {call : ToolCall}
    {next : Ask.Answer (.callTool conn call) → Phase} (h : Inv fromStr ⟨w, some r⟩)
    (hv : Phase.view fromStr r.process = .waiting (.callTool conn call) next)
    (hcan : canArrive r.request reply = true) :
    Inv fromStr (proceed (Phase.view fromStr)
      (w.record (.answered w.calls r.request call reply w.time)) r.op (next (reply, w.time))) := by
  have hcall : InCall fromStr w.journal w.calls w.client r := h.state
  have harrive : ∀ x, reply = .ok x → ∃ wid, r.request = some wid := by
    rintro x rfl
    exact Option.isSome_iff_exists.mp hcan
  have hsent : ∀ rid, r.request = some rid →
      ∃ conn', Entry.sent w.calls rid conn' call ∈ w.journal :=
    fun rid hrid => ⟨conn, hcall.sent conn call next rid hv hrid⟩
  refine inv_reply h ⟨hsent, harrive⟩ rfl id (by rintro _ _ _ _ _ ⟨⟩) ?_
  obtain ⟨op, process, request⟩ := r
  have hcache : process.client.cache = cacheOf fromStr w.journal := hcall.cache
  have hplace : Place w.calls w.client w.journal op request process := hcall.place
  cases hplace with
  | reconnecting => cases hv
  | dialing => cases hv
  | reading hlive =>
    cases hv
    exact onward_readAnswered hlive hcache
  | revalidating hlive hnone =>
    cases hv
    exact onward_revalidated hlive hcache ⟨_, hcall.called⟩ hnone
  | rereading hlive hwrites hrefused =>
    cases hv
    exact onward_reread hlive hcache hwrites hrefused
  | writing hlive hk hwrites =>
    cases hv
    exact onward_writeAnswered hlive hcache hwrites harrive

/-- The request a call awaits may go on the wire. -/
theorem rule_sent {conn : ConnId} {call : ToolCall}
    {next : Ask.Answer (.callTool conn call) → Phase}
    (h : Inv fromStr ⟨w, some ⟨op, φ, none⟩⟩)
    (hv : Phase.view fromStr φ = .waiting (.callTool conn call) next) :
    Rule fromStr w.journal (.sent w.calls w.requests conn call) := by
  have hcall : InCall fromStr w.journal w.calls w.client ⟨op, φ, none⟩ := h.state
  have hcache : φ.client.cache = cacheOf fromStr w.journal := hcall.cache
  have hplace : Place w.calls w.client w.journal op none φ := hcall.place
  refine ⟨hcall.unreturned, ?_, ?_⟩
  · intro m conn' call' hmem
    exact Nat.lt_irrefl _ (h.ledger.requested hmem)
  · rintro path content expected rfl
    cases hplace with
    | reconnecting => cases hv
    | dialing => cases hv
    | reading => cases hv
    | revalidating => cases hv
    | rereading => cases hv
    | writing hlive hk hwrites =>
      cases hv
      exact ⟨⟨_, hcall.called⟩, hwrites, _, hcache ▸ hk, rfl⟩

theorem inv_send {conn : ConnId} {call : ToolCall}
    {next : Ask.Answer (.callTool conn call) → Phase}
    (h : Inv fromStr ⟨w, some ⟨op, φ, none⟩⟩)
    (hv : Phase.view fromStr φ = .waiting (.callTool conn call) next) :
    Inv fromStr ⟨w.sent conn call, some ⟨op, φ, some w.requests⟩⟩ := by
  have hcall : InCall fromStr w.journal w.calls w.client ⟨op, φ, none⟩ := h.state
  obtain ⟨hcalled, hopen, hplace, hcache, -⟩ := hcall
  refine ⟨h.ledger.send ⟨.inl h.settled, rule_sent h hv⟩ (Nat.le_refl _), settled_snoc.mpr id, ?_⟩
  refine ⟨List.mem_append_left _ hcalled, hopen.snoc ?_, hplace.send hv, ?_, ?_⟩
  · rintro _ _ _ _ ⟨⟩
  · show φ.client.cache = cacheOf fromStr (w.journal ++ [_])
    rw [cacheOf_quiet rfl rfl]
    exact hcache
  · intro conn' call' next' rid hv' hrid
    obtain rfl := Option.some.inj hrid
    have hq := hv.symm.trans hv'
    cases hq
    exact List.mem_concat_self

end InCall

/-- An entry of the server or of the human leaves every call where it was. -/
theorem inv_elsewhere {e : Entry} {w' : World} {running : Option (Running Phase)}
    (h : Inv fromStr ⟨w, running⟩) (hj : w'.journal = w.journal ++ [e])
    (hcalls : w'.calls = w.calls) (hclient : w'.client = w.client)
    (ledger : Ledger fromStr w'.journal w'.calls w'.requests w'.inFlight)
    (hnone : e.callNo? = none) :
    Inv fromStr ⟨w', running⟩ := by
  have hquiet : e.confirms fromStr = none ∧ e.discards fromStr = none ∧
      ¬ e.Closes fromStr w.journal ∧ (∀ n, e.writeOf n = none) ∧
      ∀ n op outcome after time, e ≠ .returned n op outcome after time := by
    cases e with
    | served => exact ⟨rfl, rfl, id, fun _ => rfl, by rintro _ _ _ _ _ ⟨⟩⟩
    | edited => exact ⟨rfl, rfl, id, fun _ => rfl, by rintro _ _ _ _ _ ⟨⟩⟩
    | _ => cases hnone
  obtain ⟨hc, hd, hclose, hw, hret⟩ := hquiet
  have hcacheOf : cacheOf fromStr w'.journal = cacheOf fromStr w.journal := by
    rw [hj, cacheOf_quiet hc hd]
  refine ⟨ledger, hj ▸ settled_snoc.mpr hclose, ?_⟩
  cases running with
  | none =>
    obtain ⟨-, -, hcache, hwell⟩ := h
    show w'.client.cache = cacheOf fromStr w'.journal ∧ w'.client.WellFormed
    rw [hcacheOf, hclient]
    exact ⟨hcache, hwell⟩
  | some r =>
    obtain ⟨-, -, hcalled, hopen, hplace, hcache, hsent⟩ := h
    show InCall fromStr w'.journal w'.calls w'.client r
    rw [hcalls, hclient]
    refine ⟨?_, ?_, ?_, hcache.trans hcacheOf.symm, ?_⟩
    · rw [hj]
      exact List.mem_append_left _ hcalled
    · rw [hj]
      exact hopen.snoc (hret _)
    · rw [hj]
      exact hplace.snoc (hw _)
    · intro conn call next rid hv hrid
      rw [hj]
      exact List.mem_append_left _ (hsent conn call next rid hv hrid)

theorem inv_serve {rid : Nat} {call : ToolCall} {reply : ToolReply} {wrote : Option String}
    {running : Option (Running Phase)} (h : Inv fromStr ⟨w, running⟩)
    (hl : w.inFlight.lookup rid = some call) :
    Inv fromStr ⟨w.served rid call reply wrote, running⟩ := by
  have hmem : (rid, call) ∈ w.inFlight := by
    obtain ⟨l, l', heq, -⟩ := List.lookup_eq_some_iff.mp hl
    rw [heq]
    exact List.mem_append_right _ List.mem_cons_self
  exact inv_elsewhere h rfl rfl rfl (h.ledger.serve ⟨.inl h.settled, h.ledger.flying hmem⟩) rfl

theorem inv_edit {path : String} {note : Option Note} {running : Option (Running Phase)}
    (h : Inv fromStr ⟨w, running⟩) : Inv fromStr ⟨w.edited path note, running⟩ :=
  inv_elsewhere h rfl rfl rfl
    (h.ledger.snoc ⟨.inl h.settled, trivial⟩ (Nat.le_refl _) nofun id) rfl

/-- **Every step keeps the invariant.** -/
theorem inv_step {s s' : Federation Phase} {e : Event} (h : Inv fromStr s)
    (hs : (phases fromStr).step s e = some s') : Inv fromStr s' := by
  obtain ⟨w, running⟩ := s
  cases step_moves hs with
  | call hrun =>
    obtain rfl : running = none := hrun
    exact inv_call h
  | connected hrun hv =>
    obtain rfl := hrun
    exact inv_connected h hv
  | @send r _ _ _ hrun hv hreq =>
    obtain rfl := hrun
    obtain ⟨op, φ, request⟩ := r
    obtain rfl : request = none := hreq
    exact inv_send h hv
  | answer hrun hv hcan =>
    obtain rfl := hrun
    exact inv_answer h hv hcan
  | serve hl => exact inv_serve h hl
  | edit => exact inv_edit h
  | tick => exact ⟨h.ledger, h.settled, h.state⟩

/-- Every state the automaton reaches keeps the invariant. -/
theorem run_inv {vault : String → Option Note} {tr : List Event} {t : Federation Phase}
    (h : (phases fromStr).run (init vault) tr = some t) : Inv fromStr t :=
  (phases fromStr).history (P := fun _ s => Inv fromStr s) (inv_init vault)
    (fun _ _ _ _ _ hinv hstep => inv_step hinv hstep) h

/-- **The journal of every run of the source's client keeps the laws.** -/
theorem run_lawful {vault : String → Option Note} {tr : List Event}
    {s : Federation (Program Ask Ask.Answer (Outcome × VaultClient))}
    (h : (machine fromStr).run (init vault) tr = some s) : Lawful fromStr s.world.journal := by
  obtain ⟨t, ht, hworld⟩ := run_phases h
  have inv := run_inv ht
  rw [hworld]
  exact ⟨inv.ledger.laws, inv.settled⟩

/-- Between two calls, a client online without a connection has never connected. -/
theorem run_wellFormed {vault : String → Option Note} {tr : List Event}
    {s : Federation (Program Ask Ask.Answer (Outcome × VaultClient))}
    (h : (machine fromStr).run (init vault) tr = some s) (idle : s.running = none) :
    s.world.client.WellFormed := by
  have start : Same fromStr (init vault) (init vault) := ⟨rfl, .none⟩
  obtain ⟨t, ht, hworld, hrel⟩ :=
    (machine fromStr).simulation (N := phases fromStr) Same.step start h
  have state := (run_inv ht).state
  rw [idle] at hrel
  generalize t.running = running at hrel state
  cases hrel with
  | none =>
    rw [hworld]
    exact state.2

end Federation

/-! ## Reading lawful journals -/

theorem writesOf_append (n : Nat) (J J' : List Entry) :
    writesOf n (J ++ J') = writesOf n J ++ writesOf n J' := List.filterMap_append

namespace Lawful

variable {J J₁ J₂ : List Entry}

theorem rule {e : Entry} (h : Lawful fromStr J) (hs : J = J₁ ++ e :: J₂) : Rule fromStr J₁ e :=
  (h.laws J₁ e J₂ hs).2

/-- A call returned after one last entry, in one of the ways a call ends. -/
theorem ending {n : Nat} {op : Op} {outcome : Outcome} {after : VaultClient} {time : Instant}
    (h : Lawful fromStr J) (hs : J = J₁ ++ .returned n op outcome after time :: J₂) :
    ∃ J₀ last before, J₁ = J₀ ++ [last] ∧ .called n op before ∈ J₁ ∧
      after.cache = cacheOf fromStr J₁ ∧ Ending fromStr n before J₀ last time op outcome after :=
  h.rule hs

/-- An entry that ends its call is followed by the return. -/
theorem closed {f : Entry} (h : Lawful fromStr J) (hs : J = J₁ ++ f :: J₂)
    (hf : f.Closes fromStr J₁) :
    ∃ n op outcome after time J₃ before, J₂ = .returned n op outcome after time :: J₃ ∧
      .called n op before ∈ J₁ ++ [f] ∧ after.cache = cacheOf fromStr (J₁ ++ [f]) ∧
      Ending fromStr n before J₁ f time op outcome after := by
  have hopen : ¬ Settled fromStr (J₁ ++ [f]) := fun hset => settled_snoc.mp hset hf
  cases J₂ with
  | nil => exact absurd (hs ▸ h.settled) hopen
  | cons e J₃ =>
    have hs' : J = (J₁ ++ [f]) ++ e :: J₃ := eq_snoc_append hs
    rcases (h.laws _ e J₃ hs').1 with hset | ⟨n, op, outcome, after, time, rfl⟩
    · exact absurd hset hopen
    · obtain ⟨J₀, last, before, hj, hcalled, hcache, hending⟩ := h.ending hs'
      obtain ⟨rfl, hlast⟩ := List.append_inj' hj rfl
      cases hlast
      exact ⟨n, op, outcome, after, time, J₃, before, rfl, hcalled, hcache, hending⟩

/-- A call is called once. -/
theorem called_unique {n : Nat} {op op' : Op} {before before' : VaultClient}
    (h : Lawful fromStr J) (ha : .called n op before ∈ J) (hb : .called n op' before' ∈ J) :
    op = op' ∧ before = before' := by
  rcases h.laws.compare ha hb with heq | ⟨l, hmem, hlaw⟩ | ⟨l, hmem, hlaw⟩
  · cases heq
    exact ⟨rfl, rfl⟩
  · exact absurd rfl (hlaw.2 _ hmem)
  · exact absurd rfl (hlaw.2 _ hmem)

/-- A request is served once. -/
theorem served_unique {rid : Nat} {call call' : ToolCall} {note note' : Option Note}
    {reply reply' : ToolReply} {wrote wrote' : Option String} (h : Lawful fromStr J)
    (ha : .served rid call note reply wrote ∈ J) (hb : .served rid call' note' reply' wrote' ∈ J) :
    Entry.served rid call note reply wrote = .served rid call' note' reply' wrote' := by
  rcases h.laws.compare ha hb with heq | ⟨l, hmem, hlaw⟩ | ⟨l, hmem, hlaw⟩
  · exact heq
  · exact absurd hmem (hlaw.2.2 _ _ _ _)
  · exact absurd hmem (hlaw.2.2 _ _ _ _)

/-- A request is sent once. -/
theorem sent_unique {n n' rid : Nat} {conn conn' : ConnId} {call call' : ToolCall}
    (h : Lawful fromStr J) (ha : .sent n rid conn call ∈ J) (hb : .sent n' rid conn' call' ∈ J) :
    n = n' ∧ call = call' := by
  rcases h.laws.compare ha hb with heq | ⟨l, hmem, hlaw⟩ | ⟨l, hmem, hlaw⟩
  · cases heq
    exact ⟨rfl, rfl⟩
  · exact absurd hmem (hlaw.2.2.1 _ _ _)
  · exact absurd hmem (hlaw.2.2.1 _ _ _)

/-- A call that returned puts nothing more on the wire. -/
theorem writesOf_returned {n : Nat} {op : Op} {outcome : Outcome} {after : VaultClient}
    {time : Instant} (h : Lawful fromStr J)
    (hs : J = J₁ ++ .returned n op outcome after time :: J₂) : writesOf n J = writesOf n J₁ := by
  have hlater : writesOf n (.returned n op outcome after time :: J₂) = [] := by
    apply List.eq_nil_iff_forall_not_mem.mpr
    rintro ⟨rid, call⟩ hmem
    obtain ⟨-, conn, hsent⟩ := mem_writesOf.mp hmem
    rcases List.mem_cons.mp hsent with heq | hsent
    · cases heq
    · obtain ⟨l, l', rfl⟩ := List.append_of_mem hsent
      have hsplit : J = (J₁ ++ .returned n op outcome after time :: l) ++
          .sent n rid conn call :: l' := by
        rw [hs, List.append_assoc, List.cons_append]
      have hopen := (h.rule hsplit).1 op outcome after time
      exact hopen (List.mem_append_right _ List.mem_cons_self)
  rw [hs, writesOf_append, hlater, List.append_nil]

/-- Nor does its last entry. -/
theorem writesOf_ended {n : Nat} {op : Op} {outcome : Outcome} {before after : VaultClient}
    {time : Instant} {J₀ : List Entry} {last : Entry} (h : Lawful fromStr J)
    (hs : J = (J₀ ++ [last]) ++ .returned n op outcome after time :: J₂)
    (hending : Ending fromStr n before J₀ last time op outcome after) :
    writesOf n J = writesOf n J₀ := by
  rw [h.writesOf_returned hs, writesOf_snoc, (hending.last_quiet n "").1]
  exact List.append_nil _

/-- A call puts one `vault_write` on the wire at most. -/
theorem writesOf_length (h : Lawful fromStr J) (n : Nat) : (writesOf n J).length ≤ 1 := by
  obtain ⟨laws, -⟩ := h
  induction J using List.reverseRecOn with
  | nil => exact Nat.zero_le _
  | append_singleton J e ih =>
    obtain ⟨hall, hlast⟩ := every_snoc.mp laws
    rw [writesOf_snoc]
    cases he : e.writeOf n with
    | none => simpa using ih hall
    | some w =>
      cases e with
      | sent m rid conn call =>
        simp only [Entry.writeOf, Option.ite_none_right_eq_some] at he
        obtain ⟨⟨rfl, hwrite⟩, -⟩ := he
        cases call with
        | vaultRead path => cases hwrite
        | vaultWrite path content expected =>
          obtain ⟨-, hnone, -⟩ := hlast.2.2.2 path content expected rfl
          rw [hnone]
          exact Nat.le_refl _
      | _ => cases he

end Lawful

end GooseClaw
