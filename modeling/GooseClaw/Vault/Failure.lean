import GooseClaw.Vault.Loss
import GooseClaw.Vault.Server

/-!
# When the connection fails

The module contract says that a dead connection is dropped and that a write it breaks is muted. The code
does so but for two slips (`run_drops_iff`). The `?` on the revalidation read of `write` returns the
error as it is, and leaves the client believing it is online. And a stream that ends inside the reply to a
write makes `roundtrip` parse the part that came: the connection is dropped, but the error is `Protocol`,
which `write` does not take for a mute.

A mute is also said to mean that the write did not happen. It does mean so for every mute but that of a
write lost after its request was on the wire: the client cannot tell a lost request from a lost reply
(`run_muted_iff`).
-/

namespace GooseClaw

open Found VaultClient

/-! ## Dropping a dead connection -/

/-- The failure of the read that revalidates a write. -/
def Entry.LosesRevalidation (J : List Entry) : Entry → Prop
  | .answered n _ call (.error _) _ => Revalidates n J call
  | _ => False

/-- The entry shows the loss of the connection in call `n`: no connection came up, or a tool call failed
with the error the loss gives. -/
def Entry.Loses (fromStr : String → Except String Json) (n : Nat) (loss : Loss) : Entry → Prop
  | .connected m (.error e) => m = n ∧ loss = .unconnected e
  | .answered m _ _ (.error e) _ => m = n ∧ loss.Gives fromStr e
  | _ => False

/-- Call `n` is a write. -/
def IsWriteCall (n : Nat) (J : List Entry) : Prop :=
  ∃ path content before, .called n (.write path content) before ∈ J

/-- Offline, every call asks for a connection first. -/
theorem offline_dials {fromStr : String → Except String Json} {c : VaultClient}
    (h : c.offline = true) (op : Op) (now : Instant) :
    ∃ next, op.program fromStr c now = .ask .connect next := by
  obtain ⟨conn, cache, offline, reval⟩ := c
  obtain rfl : offline = true := h
  cases op <;> exact ⟨_, rfl⟩

/-- What the contract asks after a failure in call `n`: the call returns at once, leaves the client
offline without the connection, so that the next call tries a fresh one, and if it was a write it
returns `Muted`. -/
def Drops (fromStr : String → Except String Json) (n : Nat) (later : List Entry) : Prop :=
  ∃ op outcome after time rest, later = .returned n op outcome after time :: rest ∧ after.Down ∧
    (∀ (op' : Op) now, ∃ next, op'.program fromStr after now = .ask .connect next) ∧
    ∀ path content, op = .write path content → outcome = .write (.error .muted)

section

variable {fromStr : String → Except String Json} {J J₁ J₂ : List Entry} {n : Nat} {f : Entry}
  {loss : Loss}

theorem Entry.Fails.callNo? (h : f.Fails n) : f.callNo? = some n := by
  cases f with
  | connected m answer =>
    cases answer with
    | ok conn => exact h.elim
    | error e => exact congrArg some h
  | answered m rid call reply time =>
    cases reply with
    | ok r => exact h.elim
    | error e => exact congrArg some h
  | _ => exact h.elim

theorem Entry.Fails.confirms (h : f.Fails n) : f.confirms fromStr = none := by
  cases f with
  | answered m rid call reply time =>
    cases reply with
    | ok r => exact h.elim
    | error e => cases call <;> rfl
  | _ => rfl

theorem Entry.Loses.fails (h : f.Loses fromStr n loss) : f.Fails n := by
  cases f with
  | connected m answer =>
    cases answer with
    | ok conn => exact h
    | error e => exact h.1
  | answered m rid call reply time =>
    cases reply with
    | ok r => exact h
    | error e => exact h.1
  | _ => exact h

/-- A loss that an answer shows is in its error. -/
theorem loses_answered {m : Nat} {rid : Option Nat} {call : ToolCall} {reply : ToolReply}
    {time : Instant} (h : (Entry.answered m rid call reply time).Loses fromStr n loss) :
    (reply.IsFailure ↔ ¬ loss.Garbles fromStr) ∧
      ∀ J, (Entry.answered m rid call reply time).LosesRevalidation J ↔ Revalidates m J call := by
  cases reply with
  | ok r => exact h.elim
  | error e =>
    refine ⟨?_, fun _ => Iff.rfl⟩
    rw [← h.2.isTransport_iff]
    exact ⟨fun ⟨e', heq, he'⟩ => by cases heq; exact he', fun he => ⟨e, rfl, he⟩⟩

/-- A write is muted when its error is the transport's. -/
theorem mute_eq_muted {e : KnowledgeError} (hwire : e.IsWire) :
    e.mute = .muted ↔ ∃ t, e = .transport t := by
  rcases hwire with ⟨t, rfl⟩ | ⟨m, rfl⟩
  · exact ⟨fun _ => ⟨t, rfl⟩, fun _ => rfl⟩
  · exact ⟨nofun, nofun⟩

/-- After a failure, a call that returned with the client down drops the connection, if it was muted or no
write. -/
theorem drops_iff_of_down {op : Op} {outcome : Outcome} {after : VaultClient} {time : Instant}
    (hdown : after.Down) :
    Drops fromStr n (.returned n op outcome after time :: J₂) ↔
      ∀ path content, op = .write path content → outcome = .write (.error .muted) := by
  constructor
  · rintro ⟨op', outcome', after', time', rest, heq, -, -, hmuted⟩
    cases heq
    exact hmuted
  · exact fun hmuted => ⟨op, outcome, after, time, J₂, rfl, hdown, offline_dials hdown.1, hmuted⟩

/-- After a `vault_write`, or the re-read after its conflict, the connection is dropped, and the write muted
unless the reply was garbled. -/
theorem drops_iff_of_written {m : Nat} {rid : Option Nat} {call : ToolCall} {reply : ToolReply}
    {now time : Instant} {path content : String} {e : KnowledgeError} {before after : VaultClient}
    (hf : (Entry.answered m rid call reply now).Loses fromStr m loss)
    (hcalled : .called m (.write path content) before ∈ J₁)
    (hrev : ¬ (Entry.answered m rid call reply now).LosesRevalidation J₁) (hwire : e.IsWire)
    (hiff : (∃ t, e = .transport t) ↔ reply.IsFailure) (hdown : after.Down) :
    Drops fromStr m (.returned m (.write path content) (.write (.error e.mute)) after time :: J₂) ↔
      ¬ (Entry.answered m rid call reply now).LosesRevalidation J₁ ∧
        ¬ (loss.Garbles fromStr ∧ IsWriteCall m J₁) := by
  have hwrite : IsWriteCall m J₁ := ⟨path, content, before, hcalled⟩
  calc Drops fromStr m (.returned m (.write path content) (.write (.error e.mute)) after time :: J₂)
      ↔ e.mute = .muted := by
        rw [drops_iff_of_down hdown]
        constructor
        · intro hmuted
          have heq := hmuted path content rfl
          rwa [Outcome.write.injEq, Except.error.injEq] at heq
        · rintro heq - - -
          rw [heq]
    _ ↔ ¬ loss.Garbles fromStr := by rw [mute_eq_muted hwire, hiff, (loses_answered hf).1]
    _ ↔ _ := by
        constructor
        · exact fun hwhole => ⟨hrev, fun hboth => hwhole hboth.1⟩
        · exact fun hboth hgarbles => hboth.2 ⟨hgarbles, hwrite⟩

/-- **Which losses drop the connection**: all but that of a revalidation, and that of a line of which the
part that came is taken for the reply to a write. -/
theorem Lawful.drops_iff (h : Lawful fromStr J) (hs : J = J₁ ++ f :: J₂)
    (hf : f.Loses fromStr n loss) :
    Drops fromStr n J₂ ↔
      ¬ f.LosesRevalidation J₁ ∧ ¬ (loss.Garbles fromStr ∧ IsWriteCall n J₁) := by
  have hfails := hf.fails
  obtain ⟨m, op, outcome, after, time, J₃, before, rfl, hcalled, -, hending⟩ :=
    h.closed hs (hfails.closes J₁)
  obtain rfl : m = n := Option.some.inj (hending.callNo?.symm.trans hfails.callNo?)
  have hmem : ∀ op' before', Entry.called m op' before' ∈ J₁ → op' = op := by
    intro op' before' h'
    exact (h.called_unique (mem_of_eq_append hs h')
      (mem_of_eq_append (eq_snoc_append hs) hcalled)).1
  cases hending with
  | hit hopen => exact absurd hfails hopen.not_fails
  | mustRead hopen => exact absurd hfails hopen.not_fails
  | fetched hk =>
    rw [hfails.confirms] at hk
    cases hk
  | written hk =>
    rw [hfails.confirms] at hk
    cases hk
  | conflict hk =>
    rw [hfails.confirms] at hk
    cases hk
  | fallback hn hc hdown =>
    have hread : ¬ IsWriteCall m J₁ := by
      rintro ⟨path, content, before', h'⟩
      cases hmem _ _ h'
    refine iff_of_true ((drops_iff_of_down hdown).mpr nofun) ⟨?_, fun hboth => hread hboth.2⟩
    intro hrev
    cases f with
    | answered k rid call reply time =>
      cases hfails.callNo?
      exact hread (((loses_answered hf).2 J₁).mp hrev).2.1
    | _ => exact hrev
  | refused hnone hcache hdown =>
    have hwhole : ¬ loss.Garbles fromStr := by
      rw [hf.2]
      exact id
    exact iff_of_true ((drops_iff_of_down hdown).mpr fun _ _ _ => rfl)
      ⟨id, fun hboth => hwhole hboth.1⟩
  | unrevalidated hc hnone hwire hiff hon =>
    have hcalled' := (mem_snoc.mp hcalled).resolve_right nofun
    refine iff_of_false ?_ fun hboth =>
      hboth.1 (((loses_answered hf).2 J₁).mpr ⟨rfl, ⟨_, _, before, hcalled'⟩, hnone⟩)
    rintro ⟨op, outcome, after', time', rest, heq, hdown, -⟩
    cases heq
    rw [hdown.1] at hon
    cases hon
  | failed hc hwrites hwire hiff hdown =>
    have hcalled' := (mem_snoc.mp hcalled).resolve_right nofun
    refine drops_iff_of_written hf hcalled' ?_ hwire hiff hdown
    intro hrev
    cases (((loses_answered hf).2 J₁).mp hrev).1
  | unreread hc hwrites hrefused hwire hiff hdown =>
    have hcalled' := (mem_snoc.mp hcalled).resolve_right nofun
    refine drops_iff_of_written hf hcalled' ?_ hwire hiff hdown
    intro hrev
    obtain ⟨-, -, hnone⟩ := ((loses_answered hf).2 J₁).mp hrev
    rw [hwrites] at hnone
    cases hnone

end

namespace Sample

/-- After an outage, the connection falls silent under the revalidation of a write. -/
def lostRevalidation : List Event :=
  firstRead ++ lostRead ++ [.call (.write path "third"), .connected (.ok 1), .send,
    .answer (.error .timeout)]

/-- As much of the reply to a write as comes before the server is gone. -/
def part : String := "\x7b\"jsonrpc\":"

/-- The stream of a server that is gone in the middle of its reply. -/
def cutStream : Incoming := ⟨[.bytes (utf8 part)], true⟩

/-- A write is applied, and the stream ends inside its reply. -/
def cutReply : List Event :=
  firstRead ++ [.call (.write path "third"), .send, .serve 1 (.ok (accepted "v2")) (some "v2"),
    .answer (.error (.protocol "expected value at line 1 column 1"))]

/-- A connection over that stream meets the loss. -/
theorem meets_cutStream :
    (McpConnection.fresh [] cutStream.readings).Meets fromStr StreamLine.text (.endedInside part) := by
  have hclosed : cutStream.closed = true := rfl
  obtain ⟨start, hend⟩ : ∃ start, cutStream.atEnd = [.line ⟨start, part⟩, .eof] :=
    Incoming.atEnd_pending hclosed rfl nofun
  have hunread : cutStream.readings = [] ++ [.line ⟨start, part⟩, .eof] := by
    rw [← hend]
    rfl
  have hcomes : McpConnection.Comes fromStr StreamLine.text 1 (.endedInside part)
      [.line ⟨start, part⟩, .eof] := by
    have hpart : McpConnection.content fromStr id part =
        .unparsable "expected value at line 1 column 1" := rfl
    refine .endedInside rfl (by decide) ?_
    intro msg hmsg
    rw [McpConnection.content_text] at hmsg
    cases hpart.symm.trans hmsg
  exact .waiting (McpConnection.writable_of_nil rfl) hunread nofun hcomes

end Sample

namespace Federation

variable {fromStr : String → Except String Json} {vault : String → Option Note} {tr : List Event}
  {s : Federation (Program Ask Ask.Answer (Outcome × VaultClient))}

/-- **A dead connection is dropped, and a write muted, but for two slips.** In every run, after every loss
of the connection under a call, the contract is kept if and only if the loss is not that of a write's
revalidation read, nor the end of the stream inside a line of which the part that came is no JSON text,
under a write. -/
theorem run_drops_iff (h : (machine fromStr).run (init vault) tr = some s) :
    ∀ J₁ f J₂ n loss, s.world.journal = J₁ ++ f :: J₂ → f.Loses fromStr n loss →
      (Drops fromStr n J₂ ↔
        ¬ f.LosesRevalidation J₁ ∧ ¬ (loss.Garbles fromStr ∧ IsWriteCall n J₁)) :=
  fun _ _ _ _ _ hs hf => (run_lawful h).drops_iff hs hf

/-- A reply that is cut short, over a stream that ends inside it, is not followed by what the contract
asks. -/
theorem run_drops_iff_sample :
    (McpConnection.fresh [] Sample.cutStream.readings).Meets Sample.fromStr StreamLine.text
      (.endedInside Sample.part) ∧
    ∃ s J₁ f J₂, (machine Sample.fromStr).run (init Sample.vault) Sample.cutReply = some s ∧
      s.world.journal = J₁ ++ f :: J₂ ∧
      f.Loses Sample.fromStr 2 (.endedInside Sample.part) ∧ ¬ Drops Sample.fromStr 2 J₂ := by
  refine ⟨Sample.meets_cutStream, ?_⟩
  obtain ⟨s, J₁, f, J₂, hrun, hs, hf, hwrite⟩ :
      ∃ s J₁ f J₂, (machine Sample.fromStr).run (init Sample.vault) Sample.cutReply = some s ∧
        s.world.journal = J₁ ++ f :: J₂ ∧
        f.Loses Sample.fromStr 2 (.endedInside Sample.part) ∧ IsWriteCall 2 J₁ :=
    ⟨_, [_, _, _, _, _, _, _, _, _], _, [_], rfl, rfl, ⟨rfl, .garbled rfl⟩,
      ⟨Sample.path, "third", _, List.mem_of_getElem? (i := 6) rfl⟩⟩
  refine ⟨s, J₁, f, J₂, hrun, hs, hf, ?_⟩
  intro hdrops
  exact ((run_drops_iff hrun J₁ f J₂ 2 _ hs hf).mp hdrops).2 ⟨⟨_, rfl⟩, hwrite⟩

/-- The contract is not kept in every run: a write whose revalidation times out reports the time-out
itself. -/
theorem not_run_drops :
    ¬ ∀ (fromStr : String → Except String Json) vault tr s,
      (machine fromStr).run (init vault) tr = some s →
      ∀ J₁ f J₂ n loss, s.world.journal = J₁ ++ f :: J₂ → f.Loses fromStr n loss →
        Drops fromStr n J₂ := by
  intro hall
  obtain ⟨s, J₁, f, after, time, hrun, hs, hf⟩ :
      ∃ s J₁ f after time,
        (machine Sample.fromStr).run (init Sample.vault) Sample.lostRevalidation = some s ∧
        s.world.journal = J₁ ++ f :: [.returned 3 (.write Sample.path "third")
          (.write (.error (.transport "timeout"))) after time] ∧
        f.Loses Sample.fromStr 3 .silent :=
    ⟨_, [_, _, _, _, _, _, _, _, _, _, _, _], _, _, _, rfl, rfl, rfl, .silent⟩
  obtain ⟨op, outcome, after', time', rest, heq, -, -, hmuted⟩ :=
    hall _ _ _ s hrun J₁ f _ 3 _ hs hf
  cases heq
  cases hmuted Sample.path "third" rfl

end Federation

/-! ## What a mute means -/

/-- The connection failed a `vault_write` that was on the wire as request `rid`. -/
def Entry.LosesWrite (rid : Nat) : Entry → Prop
  | .answered _ (some rid') (.vaultWrite _ _ _) (.error e) _ => rid' = rid ∧ e.isTransport = true
  | _ => False

section

variable {fromStr : String → Except String Json} {J : List Entry}

/-- Every request of a call is sent for one call only, so an applied one is the call's own. -/
theorem Lawful.applied_of_sent {n rid : Nat} {conn : ConnId} {call call' : ToolCall}
    {note : Option Note} {reply : ToolReply} {version : String} (h : Lawful fromStr J)
    (hsent : .sent n rid conn call ∈ J) (hwrite : call.isWrite = true)
    (hserved : .served rid call' note reply (some version) ∈ J) : Applied n J := by
  obtain ⟨J₁, m, conn', J₂, hs⟩ := h.sent_of_served hserved
  obtain ⟨rfl, rfl⟩ := h.sent_unique hsent (mem_of_eq_append_cons hs)
  exact ⟨rid, call, note, reply, version, mem_writesOf.mpr ⟨hwrite, conn, hsent⟩, hserved⟩

/-- Every mute means that the write did not happen, as long as no write that was lost on the wire is
applied. -/
theorem Lawful.muted_iff (h : Lawful fromStr J) (genuine : Genuine J) (errors : ErrsUnwritten J) :
    (∀ n op after time, .returned n op (.write (.error .muted)) after time ∈ J → ¬ Applied n J) ↔
      ∀ rid e, e ∈ J → e.LosesWrite rid →
        ∀ call note reply version, .served rid call note reply (some version) ∉ J := by
  constructor
  · intro hmuted rid e he hlost call' note reply version hserved
    cases e with
    | answered n request call r time =>
      cases request with
      | none => exact hlost
      | some rid' =>
        cases call with
        | vaultRead path => exact hlost
        | vaultWrite path content expected =>
          cases r with
          | ok r => exact hlost
          | error m =>
            obtain ⟨rfl, hm⟩ := hlost
            have hf : (Entry.answered n (some rid') (.vaultWrite path content expected) (.error m)
                time).Fails n := rfl
            obtain ⟨J₁, J₂, hs⟩ := List.append_of_mem he
            obtain ⟨conn, hsent⟩ := (h.rule hs).1 rid' rfl
            have hsent' := mem_of_eq_append hs hsent
            -- the lost write came back muted, yet it was applied
            obtain ⟨n', op, outcome, after, time', J₃, before, rfl, -, -, hending⟩ :=
              h.closed hs (hf.closes J₁)
            cases hending.callNo?
            cases hending.of_lostWrite hm
            exact hmuted n op after time' (mem_of_eq_append_cons (eq_snoc_append hs))
              (h.applied_of_sent hsent' rfl hserved)
    | _ => exact hlost
  · intro hlost n op after time hret
    obtain ⟨J₁, J₂, hs⟩ := List.append_of_mem hret
    obtain ⟨J₀, last, before, rfl, -, -, hending⟩ := h.ending hs
    have hwrites : writesOf n J = writesOf n J₀ := h.writesOf_ended hs hending
    rcases hending.of_muted with hnone | ⟨rid, call, m, hsent, hwrite, hm, rfl⟩ |
      ⟨rid, call, text, time', hsent, hrefused⟩
    · exact not_applied_of_nil (hwrites.trans hnone)
    · rintro ⟨rid', call', note, reply, version, hmem, hserved⟩
      rw [hwrites, hsent] at hmem
      cases List.mem_singleton.mp hmem
      cases call with
      | vaultRead path => cases hwrite
      | vaultWrite path content expected =>
        exact hlost rid _ (mem_of_eq_append hs List.mem_concat_self) ⟨rfl, hm⟩ _ _ _ _ hserved
    · exact h.not_applied_of_refused genuine errors (hwrites.trans hsent)
        (mem_of_eq_append (eq_append_cons hs) hrefused)

end

namespace Sample

/-- A write is applied, and its reply is lost. -/
def lostReply : List Event :=
  firstRead ++ [.call (.write path "third"), .send, .serve 1 (.ok (accepted "v2")) (some "v2"),
    .answer (.error .timeout)]

/-- A write is lost before the server takes it up. -/
def lostWrite : List Event :=
  firstRead ++ [.call (.write path "third"), .send, .answer (.error .timeout)]

end Sample

namespace Federation

variable {fromStr : String → Except String Json} {vault : String → Option Note} {tr : List Event}
  {s : Federation (Program Ask Ask.Answer (Outcome × VaultClient))}

/-- **What a mute means.** Against a server whose replies arrive as it gave them and that answers
`isError` only when it wrote nothing: in a run, every mute means that the write did not happen and
never will if and only if no `vault_write` that the connection lost on the wire is applied. -/
theorem run_muted_iff (h : (machine fromStr).run (init vault) tr = some s)
    (genuine : Genuine s.world.journal) (errors : ErrsUnwritten s.world.journal) :
    (∀ n op after time,
        .returned n op (.write (.error .muted)) after time ∈ s.world.journal →
        ¬ Applied n s.world.journal) ↔
      ∀ rid e, e ∈ s.world.journal → e.LosesWrite rid →
        ∀ call note reply version,
          .served rid call note reply (some version) ∉ s.world.journal :=
  (run_lawful h).muted_iff genuine errors

/-- A write that times out before the server takes it up is muted, and did not happen so far. -/
theorem run_muted_iff_sample :
    ∃ s after, (machine Sample.fromStr).run (init Sample.vault) Sample.lostWrite = some s ∧
      .returned 2 (.write Sample.path "third") (.write (.error .muted)) after 0 ∈
        s.world.journal ∧
      ¬ Applied 2 s.world.journal := by
  obtain ⟨s, after, hrun, hs, hmuted⟩ :
      ∃ s after, (machine Sample.fromStr).run (init Sample.vault) Sample.lostWrite = some s ∧
        s.world.journal = Sample.journal Sample.lostWrite ∧
        .returned 2 (.write Sample.path "third") (.write (.error .muted)) after 0 ∈
          s.world.journal :=
    ⟨_, _, rfl, rfl, List.mem_of_getElem? (i := 9) rfl⟩
  have hunwritten : ∀ e ∈ Sample.journal Sample.lostWrite, e.writes = false := by decide
  have happlies := (run_muted_iff hrun (by rw [hs]; decide) (by rw [hs]; decide)).mpr (by
    intro rid e he hlost call note reply version hserved
    rw [hs] at hserved
    cases hunwritten _ hserved)
  exact ⟨s, after, hrun, hmuted, happlies 2 _ after 0 hmuted⟩

/-- A mute does not always mean that: the write was applied, and only its reply was lost. -/
theorem not_run_muted :
    ¬ ∀ (fromStr : String → Except String Json) vault tr s,
      (machine fromStr).run (init vault) tr = some s → Genuine s.world.journal →
      CompareAndSet s.world.journal → ErrsUnwritten s.world.journal →
      ShowsNotes fromStr s.world.journal → NamesWritten fromStr s.world.journal →
      ∀ n op after time,
        .returned n op (.write (.error .muted)) after time ∈ s.world.journal →
        ¬ Applied n s.world.journal := by
  intro hall
  obtain ⟨s, after, hrun, hs, hmuted, happlied⟩ :
      ∃ s after, (machine Sample.fromStr).run (init Sample.vault) Sample.lostReply = some s ∧
        s.world.journal = Sample.journal Sample.lostReply ∧
        .returned 2 (.write Sample.path "third") (.write (.error .muted)) after 0 ∈
          s.world.journal ∧
        Applied 2 s.world.journal :=
    ⟨_, _, rfl, rfl, List.mem_of_getElem? (i := 10) rfl,
      1, .vaultWrite Sample.path "third" (some "v1"), some ⟨"first", "v1"⟩,
      .ok (Sample.accepted "v2"), "v2", by decide, List.mem_of_getElem? (i := 8) rfl⟩
  refine hall _ _ _ s hrun ?_ ?_ ?_ ?_ ?_ _ _ _ _ hmuted happlied <;> rw [hs] <;> decide

end Federation

end GooseClaw
