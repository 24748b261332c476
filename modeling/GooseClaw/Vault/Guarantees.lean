import GooseClaw.Vault.EndToEnd
import GooseClaw.Vault.HumanEdits

/-!
# Session guarantees

What the client gives its caller about a note never goes back: a later result carries a later version or
the same one, whatever connections were lost in between and whatever was served late, and a write that
was accepted has moved the version on (`Rig.run_session`).

The client compares no versions. What carries the guarantee is that nothing happens at the client
between a request and its answer (`SentLast`), so an answer is given after everything the client
has confirmed before, and that a note at the server only moves forward (`Entry.Forward`).
-/

namespace GooseClaw

open Found

/-! ## Between a request and its answer -/

/-- Nothing has happened at the client since call `n` sent the request. -/
def SentLast (J : List Entry) (n rid : Nat) (conn : ConnId) (call : ToolCall) : Prop :=
  ∃ A B, J = A ++ .sent n rid conn call :: B ∧ ∀ e ∈ B, e.callNo? = none

theorem SentLast.snoc {J : List Entry} {n rid : Nat} {conn : ConnId} {call : ToolCall} {e : Entry}
    (h : SentLast J n rid conn call) (he : e.callNo? = none) :
    SentLast (J ++ [e]) n rid conn call := by
  obtain ⟨A, B, rfl, hB⟩ := h
  refine ⟨A, B ++ [e], by rw [List.append_assoc, List.cons_append], ?_⟩
  intro e' he'
  rcases mem_snoc.mp he' with hold | rfl
  · exact hB e' hold
  · exact he

/-- A request that is answered was the last thing the client did. -/
def Entry.Awaited (J : List Entry) : Entry → Prop
  | .answered n (some rid) call _ _ => ∃ conn, SentLast J n rid conn call
  | _ => True

namespace Federation

section

variable {Φ : Type} {view : Φ → View Ask Ask.Answer (Outcome × VaultClient) Φ}
  {start : Op → VaultClient → Instant → Φ}

/-- The answers so far were awaited, and the call in progress awaits its own. -/
structure Awaiting (view : Φ → View Ask Ask.Answer (Outcome × VaultClient) Φ)
    (s : Federation Φ) : Prop where
  awaited : Every Entry.Awaited s.world.journal
  pending : ∀ r conn call next rid, s.running = some r →
    view r.process = .waiting (.callTool conn call) next → r.request = some rid →
    SentLast s.world.journal s.world.calls rid conn call

theorem awaiting_proceed {w : World} {op : Op} {φ : Φ} (h : Every Entry.Awaited w.journal) :
    Awaiting view (proceed view w op φ) := by
  unfold proceed
  split
  · exact ⟨every_snoc.mpr ⟨h, trivial⟩, by rintro _ _ _ _ _ ⟨⟩⟩
  · refine ⟨h, ?_⟩
    rintro r conn call next rid ⟨⟩ _ ⟨⟩

/-- What happens elsewhere leaves the call in progress waiting. -/
theorem Awaiting.elsewhere {s : Federation Φ} {w : World} {e : Entry} (h : Awaiting view s)
    (hj : w.journal = s.world.journal ++ [e]) (hcalls : w.calls = s.world.calls)
    (he : e.callNo? = none) : Awaiting view { s with world := w } where
  awaited := by
    show Every _ w.journal
    rw [hj]
    refine every_snoc.mpr ⟨h.awaited, ?_⟩
    cases e with
    | answered => cases he
    | _ => trivial
  pending := by
    intro r conn call next rid hrun hv hrid
    show SentLast w.journal w.calls rid conn call
    rw [hj, hcalls]
    exact (h.pending r conn call next rid hrun hv hrid).snoc he

theorem awaiting_step {s s' : Federation Φ} {e : Event} (h : Awaiting view s)
    (hs : step view start s e = some s') : Awaiting view s' := by
  cases step_moves hs with
  | call => exact awaiting_proceed (every_snoc.mpr ⟨h.awaited, trivial⟩)
  | connected => exact awaiting_proceed (every_snoc.mpr ⟨h.awaited, trivial⟩)
  | @send r conn call next hrun hv hreq =>
    refine ⟨every_snoc.mpr ⟨h.awaited, trivial⟩, ?_⟩
    rintro _ conn' call' next' rid ⟨⟩ hv' ⟨⟩
    cases hv.symm.trans hv'
    exact ⟨_, [], rfl, List.forall_mem_nil _⟩
  | @answer r conn call reply next hrun hv =>
    refine awaiting_proceed (every_snoc.mpr ⟨h.awaited, ?_⟩)
    cases hrid : r.request with
    | none => exact trivial
    | some rid => exact ⟨conn, h.pending r conn call next rid hrun hv hrid⟩
  | serve => exact h.elsewhere rfl rfl rfl
  | edit => exact h.elsewhere rfl rfl rfl
  | tick => exact ⟨h.awaited, h.pending⟩

/-- In every run, an answer was awaited. -/
theorem run_awaited {vault : String → Option Note} {tr : List Event} {s : Federation Φ}
    (h : (Machine.mk (step view start)).run (init vault) tr = some s) :
    Every Entry.Awaited s.world.journal := by
  have hinit : Awaiting view (init vault : Federation Φ) :=
    ⟨every_nil _, by rintro _ _ _ _ _ ⟨⟩⟩
  exact ((Machine.mk (step view start)).history (P := fun _ s => Awaiting view s) hinit
    (fun _ _ _ _ _ hs hstep => awaiting_step hs hstep) h).awaited

end

end Federation

/-! ## Versions the client confirms -/

/-- The entry is the answer to a write. -/
def Entry.confirmsWrite : Entry → Bool
  | .answered _ _ call _ _ => call.isWrite
  | _ => false

/-- A journal of the client and a server that keeps its promises, with the record of edits. -/
structure Sound (serde : JsonSerde) (log : List (String × String)) (J : List Entry) : Prop where
  laws : Every (Law serde.fromStr) J
  awaited : Every Entry.Awaited J
  kept : Every (Entry.Kept serde) J
  dated : ∀ e ∈ J, e.Dated log

/-- What a served call lets the client learn. -/
def Learned (k : CacheEntry) (note : Option Note) (wrote : Option String) : ToolCall → Prop
  | .vaultRead _ => ∃ version, note = some ⟨k.content, version⟩ ∧ k.version = some version
  | .vaultWrite _ content _ => k.content = content ∧ ∃ version, wrote = some version ∧ k.version = some version

section

variable {serde : JsonSerde} {log : List (String × String)} {J J₁ J₂ : List Entry} {path : String}
  {k k' : CacheEntry} {e e' : Entry}

theorem Sound.rule (h : Sound serde log J) (hs : J = J₁ ++ e :: J₂) : Rule serde.fromStr J₁ e :=
  (h.laws J₁ e J₂ hs).2

theorem Sound.of_append (h : Sound serde log (J₁ ++ J₂)) : Sound serde log J₁ :=
  ⟨h.laws.of_append, h.awaited.of_append, h.kept.of_append,
    fun e he => h.dated e (List.mem_append_left _ he)⟩

theorem Sound.promises (h : Sound serde log J) : KeepsPromises serde.fromStr J :=
  keepsPromises_of_kept h.kept h.dated

theorem Sound.finds (h : Sound serde log J) (he : e ∈ J) : e.Finds := by
  obtain ⟨J₁, J₂, hs⟩ := List.append_of_mem he
  exact (h.kept J₁ e J₂ hs).finds

/-- What the client confirms it learned from a call that was served before. -/
theorem Sound.learned (h : Sound serde log J) (hs : J = J₁ ++ e :: J₂)
    (hc : e.confirms serde.fromStr = some (path, k)) :
    ∃ n rid call time reply note wrote, e = .answered n (some rid) call (.ok reply) time ∧
      call.path = path ∧ .served rid call note (.ok reply) wrote ∈ J₁ ∧ Learned k note wrote call := by
  cases e with
  | answered n rid call reply time =>
    cases call with
    | vaultRead path' =>
      obtain ⟨rfl, text, body, rfl, hbody, rfl⟩ := Entry.of_confirms_read hc
      obtain ⟨rid, rfl⟩ := (h.rule hs).2 _ rfl
      obtain ⟨note, wrote, hserved⟩ := h.promises.genuine.served hs
      have hmem := mem_of_eq_append hs hserved
      obtain ⟨x, rfl⟩ := Option.isSome_iff_exists.mp (h.finds hmem)
      obtain ⟨hcontent, hversion⟩ := h.promises.shows.shown hmem hbody
      refine ⟨n, rid, _, time, _, _, wrote, rfl, rfl, hserved, x.version, ?_, hversion⟩
      rw [hcontent]
      rfl
    | vaultWrite path' content expected =>
      obtain ⟨rfl, text, body, version, rfl, hbody, hv, rfl⟩ := Entry.of_confirms_write hc
      obtain ⟨rid, rfl⟩ := (h.rule hs).2 _ rfl
      obtain ⟨note, wrote, hserved⟩ := h.promises.genuine.served hs
      obtain rfl := h.promises.names.wrote_eq (mem_of_eq_append hs hserved) hbody hv
      exact ⟨n, rid, _, time, _, note, _, rfl, rfl, hserved, rfl, version, rfl, rfl⟩
  | _ => cases hc

/-- What a call learned is in the record of edits. -/
theorem Sound.learned_dated (h : Sound serde log J) {rid : Nat} {call : ToolCall}
    {note : Option Note} {reply : ToolReply} {wrote : Option String}
    (hserved : .served rid call note reply wrote ∈ J) (hlearned : Learned k note wrote call) :
    ∃ n : UInt64, k.version = some (versionText n) ∧ named log call.path n.toNat = some k.content ∧
      (Entry.served rid call note reply wrote).Shows call.path n := by
  obtain ⟨hnote, hwrote⟩ := h.dated _ hserved
  cases call with
  | vaultRead path =>
    obtain ⟨version, rfl, hversion⟩ := hlearned
    obtain ⟨n, rfl, hnamed⟩ := hnote _ rfl
    exact ⟨n, hversion, hnamed, rfl, .inl rfl⟩
  | vaultWrite path content expected =>
    obtain ⟨hcontent, version, rfl, hversion⟩ := hlearned
    obtain ⟨path', content', expected', hcall, n, rfl, hnamed⟩ := hwrote version rfl
    cases hcall
    exact ⟨n, hversion, hcontent ▸ hnamed, rfl, .inr rfl⟩

/-- What the client confirms is in the record of edits. -/
theorem Sound.confirms_named (h : Sound serde log J) (hs : J = J₁ ++ e :: J₂)
    (hc : e.confirms serde.fromStr = some (path, k)) :
    ∃ n : UInt64, k.version = some (versionText n) ∧ named log path n.toNat = some k.content ∧
      ∃ served ∈ J₁, served.Shows path n := by
  obtain ⟨n, rid, call, time, reply, note, wrote, rfl, rfl, hserved, hlearned⟩ := h.learned hs hc
  obtain ⟨m, hversion, hnamed, hshows⟩ := h.learned_dated (mem_of_eq_append hs hserved) hlearned
  exact ⟨m, hversion, hnamed, _, hserved, hshows⟩

/-- A request is served after it was sent. -/
theorem Sound.served_after (h : Sound serde log J) {A B : List Entry} {n rid : Nat} {conn : ConnId}
    {call call' : ToolCall} {note : Option Note} {reply : ToolReply} {wrote : Option String}
    (hs : J = A ++ .sent n rid conn call :: B) (hserved : .served rid call' note reply wrote ∈ J) :
    .served rid call' note reply wrote ∈ B := by
  rw [hs] at hserved
  rcases List.mem_append.mp hserved with hA | hB
  · obtain ⟨A₁, A₂, rfl⟩ := List.append_of_mem hA
    have hs' : J = A₁ ++ .served rid call' note reply wrote :: (A₂ ++ .sent n rid conn call :: B) := by
      rw [hs, List.append_assoc, List.cons_append]
    obtain ⟨⟨m, conn', hsent⟩, -⟩ := h.rule hs'
    exact absurd (List.mem_append_left _ hsent) ((h.rule hs).2.1 m conn' call')
  · rcases List.mem_cons.mp hB with heq | hB
    · cases heq
    · exact hB

/-- **The client's versions never go back.** What it confirms is no earlier than what it confirmed
before, and later when it is a write. -/
theorem Sound.confirms_mono (h : Sound serde log J) (hs : J = J₁ ++ e :: J₂)
    (hc : e.confirms serde.fromStr = some (path, k)) (he' : e' ∈ J₁)
    (hc' : e'.confirms serde.fromStr = some (path, k')) :
    ∃ m n : UInt64, k'.version = some (versionText m) ∧ k.version = some (versionText n) ∧ m ≤ n ∧
      (e.confirmsWrite = true → m < n) := by
  obtain ⟨c, rid, call, time, reply, note, wrote, rfl, rfl, hserved, hlearned⟩ := h.learned hs hc
  -- the earlier confirmation stood there when the request was sent
  obtain ⟨conn, A, B, rfl, hB⟩ := h.awaited _ _ _ hs
  have hA : e' ∈ A := by
    cases e' with
    | answered c' rid' call' reply' time' =>
      rcases List.mem_append.mp he' with hA | hmem
      · exact hA
      · rcases List.mem_cons.mp hmem with heq | hmem
        · cases heq
        · cases hB _ hmem
    | _ => cases hc'
  obtain ⟨A₁, A₂, hA'⟩ := List.append_of_mem hA
  have hs' : J = A₁ ++ e' :: (A₂ ++ .sent c rid conn call ::
      (B ++ .answered c (some rid) call (.ok reply) time :: J₂)) := by
    rw [hs, hA']
    simp only [List.append_assoc, List.cons_append]
  obtain ⟨m, hm, -, shown, hshown, hshows⟩ := h.confirms_named hs' hc'
  -- and the request was served after it was sent
  have hbefore : Sound serde log (A ++ .sent c rid conn call :: B) := (hs ▸ h).of_append
  obtain ⟨B₁, B₂, hB'⟩ := List.append_of_mem (hbefore.served_after rfl hserved)
  have hs'' : J = (A ++ .sent c rid conn call :: B₁) ++ .served rid call note (.ok reply) wrote ::
      (B₂ ++ .answered c (some rid) call (.ok reply) time :: J₂) := by
    rw [hs, hB']
    simp only [List.append_assoc, List.cons_append]
  have hforward := (h.kept _ _ _ hs'').forward
  have hshown' : shown ∈ A ++ .sent c rid conn call :: B₁ := by
    rw [hA']
    simp [hshown]
  obtain ⟨n₀, hn₀, hle⟩ := hforward.1 shown hshown' m hshows
  cases call with
  | vaultRead path =>
    obtain ⟨version, rfl, hversion⟩ := hlearned
    refine ⟨m, n₀, hm, hversion.trans hn₀, hle, nofun⟩
  | vaultWrite path content expected =>
    obtain ⟨-, version, rfl, hversion⟩ := hlearned
    obtain ⟨n, rfl, hlt⟩ := hforward.2 version rfl
    have hmn : m < n := UInt64.lt_of_le_of_lt hle (hlt n₀ hn₀)
    exact ⟨m, n, hm, hversion, UInt64.le_of_lt hmn, fun _ => hmn⟩

end

/-! ## What the caller is given -/

/-- The note a call gives its caller: the path, the content and the version. -/
def gives : Op → Outcome → Option (String × String × Option String)
  | .read _, .read (.ok r) => some (r.path, r.content, r.expectedVersion)
  | .write path content, .write (.ok (.written version)) => some (path, content, some version)
  | .write _ _, .write (.ok (.conflict fresh)) => some (fresh.path, fresh.content, fresh.expectedVersion)
  | _, _ => none

/-- A write was accepted. -/
def Outcome.isWritten : Outcome → Bool
  | .write (.ok (.written _)) => true
  | _ => false

/-- Of two calls that gave the same note, the later gave no earlier version, and a later one when it
wrote. -/
def NotBack (a b : Op × Outcome) : Prop :=
  ∀ path content content' version version', gives a.1 a.2 = some (path, content, version) →
    gives b.1 b.2 = some (path, content', version') →
    ∃ m n : UInt64, version = some (versionText m) ∧ version' = some (versionText n) ∧ m ≤ n ∧
      (b.2.isWritten = true → m < n)

section

variable {fromStr : String → Except String Json} {n : Nat} {before after : VaultClient}
  {J : List Entry} {last : Entry} {now : Instant} {op : Op} {outcome : Outcome}

/-- What a call gives is the standing confirmation, for a write that was accepted the last one. -/
theorem Ending.gives_standing {path content : String} {version : Option String}
    (h : Ending fromStr n before J last now op outcome after)
    (hcache : after.cache = cacheOf fromStr (J ++ [last]))
    (hg : gives op outcome = some (path, content, version)) :
    ∃ P c Q k, J ++ [last] = P ++ c :: Q ∧ c.confirms fromStr = some (path, k) ∧
      (∀ e ∈ Q, e.Spares fromStr path) ∧ k.content = content ∧ k.version = version ∧
      (outcome.isWritten = true → Q = [] ∧ c.confirmsWrite = true) := by
  cases op with
  | read p =>
    cases outcome with
    | write r => cases hg
    | read r =>
      cases r with
      | error e => cases hg
      | ok r =>
        obtain ⟨p', k, hop, hk, rfl, -⟩ := h.of_read hcache
        cases hop
        cases hg
        obtain ⟨P, c, Q, hsplit, hc, hQ⟩ := cacheOf_eq_some.mp hk
        exact ⟨P, c, Q, k, hsplit, hc, hQ, rfl, rfl, nofun⟩
  | write p x =>
    cases h with
    | written hk =>
      cases hg
      exact ⟨J, _, [], _, rfl, hk, List.forall_mem_nil _, rfl, rfl, fun _ => ⟨rfl, rfl⟩⟩
    | conflict hk =>
      cases hg
      exact ⟨J, _, [], _, rfl, hk, List.forall_mem_nil _, rfl, rfl, nofun⟩
    | _ => cases hg

end

section

variable {serde : JsonSerde} {log : List (String × String)} {J J₁ J₂ : List Entry}

/-- What a return gives is in the record of edits. -/
theorem Sound.returned_named (h : Sound serde log J) {n : Nat} {op : Op} {outcome : Outcome}
    {after : VaultClient} {time : Instant} {path content : String} {version : Option String}
    (hs : J = J₁ ++ .returned n op outcome after time :: J₂)
    (hg : gives op outcome = some (path, content, version)) :
    ∃ m : UInt64, version = some (versionText m) ∧ named log path m.toNat = some content := by
  obtain ⟨J₀, last, before, rfl, -, hcache, hending⟩ := h.rule hs
  obtain ⟨P, c, Q, k, hsplit, hc, -, rfl, rfl, -⟩ := hending.gives_standing hcache hg
  have hs' : J = P ++ c :: (Q ++ .returned n op outcome after time :: J₂) := by
    rw [hs, hsplit, List.append_assoc, List.cons_append]
  obtain ⟨m, hversion, hnamed, -⟩ := h.confirms_named hs' hc
  exact ⟨m, hversion, hnamed⟩

/-- **Two returns.** -/
theorem Sound.notBack (h : Sound serde log J) {n n' : Nat} {op op' : Op} {outcome outcome' : Outcome}
    {after after' : VaultClient} {time time' : Instant}
    (hs : J = J₁ ++ .returned n' op' outcome' after' time' :: J₂)
    (hmem : .returned n op outcome after time ∈ J₁) : NotBack (op, outcome) (op', outcome') := by
  intro path content content' version version' hg hg'
  obtain ⟨X, Y, hX⟩ := List.append_of_mem hmem
  have hsX : J = X ++ .returned n op outcome after time ::
      (Y ++ .returned n' op' outcome' after' time' :: J₂) := by
    rw [hs, hX, List.append_assoc, List.cons_append]
  -- both gave what was confirmed last
  obtain ⟨X₀, last, before, rfl, -, hcache, hending⟩ := h.rule hsX
  obtain ⟨P₁, c₁, Q₁, k₁, hsplit₁, hc₁, -, rfl, rfl, -⟩ := hending.gives_standing hcache hg
  obtain ⟨J₀, last', before', rfl, -, hcache', hending'⟩ := h.rule hs
  obtain ⟨P, c, Q, k, hsplit, hc, hQ, rfl, rfl, hwritten⟩ := hending'.gives_standing hcache' hg'
  have hs' : J = P ++ c :: (Q ++ .returned n' op' outcome' after' time' :: J₂) := by
    rw [hs, hsplit, List.append_assoc, List.cons_append]
  have hc₁X : c₁ ∈ X₀ ++ [last] := by
    rw [hsplit₁]
    exact List.mem_append_right _ List.mem_cons_self
  have hX' : P ++ c :: Q = (X₀ ++ [last]) ++ .returned n op outcome after time :: Y := by
    rw [← hsplit, hX]
  -- the earlier one is before the later one, or the same, and then nothing was written
  have hcases : c₁ ∈ P ∨ c₁ = c ∧ outcome'.isWritten = false := by
    cases hw : outcome'.isWritten with
    | true =>
      obtain ⟨rfl, -⟩ := hwritten hw
      rcases snoc_eq_append_cons hX' with ⟨Y', -, rfl⟩ | ⟨-, -, rfl⟩
      · exact .inl (List.mem_append_left _ hc₁X)
      · cases hc
    | false =>
      have hmem₁ : c₁ ∈ P ++ c :: Q := hX' ▸ List.mem_append_left _ hc₁X
      rcases List.mem_append.mp hmem₁ with hP | hmem₁
      · exact .inl hP
      · rcases List.mem_cons.mp hmem₁ with rfl | hmem₁
        · exact .inr ⟨rfl, rfl⟩
        · exact absurd hc₁ ((hQ c₁ hmem₁).1 k₁)
  rcases hcases with hP | ⟨rfl, hw⟩
  · obtain ⟨m₁, m, hm₁, hm, hle, hlt⟩ := h.confirms_mono hs' hc hP hc₁
    exact ⟨m₁, m, hm₁, hm, hle, fun hw => hlt (hwritten hw).2⟩
  · obtain ⟨m, hm, -, -⟩ := h.confirms_named hs' hc
    rw [hc₁, Option.some.injEq, Prod.mk.injEq] at hc
    obtain ⟨-, rfl⟩ := hc
    refine ⟨m, m, hm, hm, UInt64.le_refl m, ?_⟩
    rw [hw]
    nofun

end

namespace Rig

variable {serde : JsonSerde} {tr : List RigEvent} {s : Rig}

/-- The journal of a run of the rig is sound. -/
theorem run_sound (lawful : serde.Lawful) (h : (machine serde).run new tr = some s)
    (short : tr.length < UInt64.size) :
    ∃ log events t, (Federation.machine serde.fromStr).run (Federation.init fun _ => none) events =
        some t ∧ Sound serde log t.world.journal ∧
      s.returns = t.world.journal.filterMap Entry.returnOf ∧
      s.vault.ops = t.world.journal.filterMap Entry.opOf ∧
      ∀ p, (s.vault.notes p).map (fun e => (e.1, e.2.toNat)) = register log p := by
  obtain ⟨events, t, g, hrun, htracks⟩ := run_tracks lawful h short
  exact ⟨g.log, events, t, hrun, ⟨(Federation.run_lawful hrun).laws, Federation.run_awaited hrun,
    htracks.shares.kept, htracks.shares.dated⟩, htracks.shares.returns, htracks.shares.ops,
    htracks.shares.log⟩

/-- **Session guarantees.** There is a record of edits of which the vault holds the last ones, such that
whatever the client gave its caller about a note is what some version of the note names in it, and what it
gave later is never an earlier version, and a later one when it wrote. -/
theorem run_session (lawful : serde.Lawful) (h : (machine serde).run new tr = some s)
    (short : tr.length < UInt64.size) :
    ∃ log : List (String × String),
      (∀ p, (s.vault.notes p).map (fun e => (e.1, e.2.toNat)) = register log p) ∧
      (∀ r ∈ s.returns, ∀ path content version, gives r.1 r.2 = some (path, content, version) →
        ∃ n : UInt64, version = some (versionText n) ∧ named log path n.toNat = some content) ∧
      s.returns.Pairwise NotBack := by
  obtain ⟨log, events, t, -, hsound, hreturns, -, hlog⟩ := run_sound lawful h short
  refine ⟨log, hlog, ?_, ?_⟩
  · intro r hr path content version hg
    rw [hreturns] at hr
    obtain ⟨e, he, hof⟩ := List.mem_filterMap.mp hr
    obtain ⟨J₁, J₂, hs⟩ := List.append_of_mem he
    cases e with
    | returned n op outcome after time =>
      cases hof
      exact hsound.returned_named hs hg
    | _ => cases hof
  · rw [hreturns]
    refine List.Pairwise.filterMap Entry.returnOf ?_ (Every.pairwise
      (R := fun e e' => ∀ r r', e.returnOf = some r → e'.returnOf = some r' → NotBack r r') ?_)
    · intro e e' hee' r hr r' hr'
      exact hee' r r' hr hr'
    · intro J₁ e' J₂ hs e he r r' hr hr'
      cases e with
      | returned n op outcome after time =>
        cases e' with
        | returned n' op' outcome' after' time' =>
          cases hr
          cases hr'
          exact hsound.notBack hs he
        | _ => cases hr'
      | _ => cases hr

/-- The sample run gives its caller two versions, one after the other. -/
theorem run_session_sample :
    ∃ s, (machine compactText).run new Sample.rigRun = some s ∧ s.returns.length = 2 ∧
      ∃ log : List (String × String),
        (∀ p, (s.vault.notes p).map (fun e => (e.1, e.2.toNat)) = register log p) ∧
        (∀ r ∈ s.returns, ∀ path content version, gives r.1 r.2 = some (path, content, version) →
          ∃ n : UInt64, version = some (versionText n) ∧ named log path n.toNat = some content) ∧
        s.returns.Pairwise NotBack := by
  obtain ⟨s, hrun, hreturns, -⟩ := Sample.rigRun_some
  exact ⟨s, hrun, hreturns, run_session compactText_lawful hrun (by decide)⟩

end Rig

end GooseClaw
