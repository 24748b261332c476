import GooseClaw.Vault.Server

/-!
# What reads return and what writes put on the wire

Two promises of the client that hold against any server. A read returns the latest confirmation of its
note, and calls it fresh only when the client is online and the confirmation is younger than
`CACHE_TTL` (`run_reads_honest`). A write puts one `vault_write` on the wire at most, with the latest
confirmed token of its note, and none at all when it is turned away (`run_disciplined`); against a
server that compares and sets, what it replaces is then what the token names.
-/

namespace GooseClaw

open Found

/-- After a conflict took a copy away, what stands was confirmed later. -/
theorem Standing.after_discard {fromStr : String → Except String Json} {J J₀ rest : List Entry}
    {path : String} {k : CacheEntry} {d : Entry} (h : Standing fromStr J path k)
    (hs : J = J₀ ++ d :: rest) (hd : d.discards fromStr = some path) :
    ∃ e ∈ rest, e.confirms fromStr = some (path, k) := by
  obtain ⟨before, e, later, hsplit, hc, hspares⟩ := h
  rcases List.append_eq_append_iff.mp (hs.symm.trans hsplit) with
    ⟨mid, hbefore, hrest⟩ | ⟨mid, hJ₀, hlater⟩
  · cases mid with
    | nil =>
      obtain ⟨rfl, -⟩ := List.cons.inj hrest
      rw [Entry.discards_of_confirms hc] at hd
      cases hd
    | cons d' mid =>
      obtain ⟨-, rfl⟩ := List.cons.inj hrest
      exact ⟨e, List.mem_append_right _ List.mem_cons_self, hc⟩
  · cases mid with
    | nil =>
      obtain ⟨rfl, -⟩ := List.cons.inj hlater
      rw [Entry.discards_of_confirms hc] at hd
      cases hd
    | cons e' mid =>
      obtain ⟨rfl, rfl⟩ := List.cons.inj hlater
      exact absurd hd (hspares d (List.mem_append_right _ List.mem_cons_self)).2

namespace Federation

variable {fromStr : String → Except String Json} {vault : String → Option Note} {tr : List Event}
  {s : Federation (Program Ask Ask.Answer (Outcome × VaultClient))}

/-- **Stale data is never presented as fresh.** Whatever the server answers and in whatever order, a
read that returns a note returns the standing confirmation `k` of its path: the latest reply that
confirmed it, and later than any conflict that took a copy away. It is flagged stale exactly when the
client is left offline, and unflagged it is younger than `CACHE_TTL`. -/
theorem run_reads_honest (h : (machine fromStr).run (init vault) tr = some s) :
    ∀ J₁ n path r after time J₂,
      s.world.journal = J₁ ++ .returned n (.read path) (.read (.ok r)) after time :: J₂ →
      r.path = path ∧ r.stale = after.offline ∧
      ∃ k, Standing fromStr J₁ path k ∧ r.content = k.content ∧ r.expectedVersion = k.version ∧
        (r.stale = false → time < k.fetchedAt + CACHE_TTL) ∧
        ∀ J₀ d rest, J₁ = J₀ ++ d :: rest → d.discards fromStr = some path →
          ∃ e ∈ rest, e.confirms fromStr = some (path, k) := by
  intro J₁ n path r after time J₂ hs
  obtain ⟨J₀, last, before, rfl, -, hcache, hending⟩ := (run_lawful h).ending hs
  obtain ⟨path', k, hop, hk, rfl, hfresh⟩ := hending.of_read hcache
  cases hop
  have hstanding : Standing fromStr (J₀ ++ [last]) path k := cacheOf_eq_some.mp hk
  refine ⟨rfl, rfl, k, hstanding, rfl, rfl, hfresh, ?_⟩
  intro J₀' d rest hsplit hd
  exact hstanding.after_discard hsplit hd

/-- A copy that aged while the connection died is served stale. -/
theorem run_reads_honest_sample :
    ∃ s J₁ r after time J₂, (machine Sample.fromStr).run (init Sample.vault)
        (Sample.firstRead ++ Sample.lostRead) = some s ∧
      s.world.journal =
        J₁ ++ .returned 2 (.read Sample.path) (.read (.ok r)) after time :: J₂ ∧
      r.path = Sample.path ∧ r.stale = after.offline ∧ r.stale = true := by
  obtain ⟨s, J₁, r, after, time, J₂, hrun, hs, hstale⟩ :
      ∃ s J₁ r after time J₂, (machine Sample.fromStr).run (init Sample.vault)
          (Sample.firstRead ++ Sample.lostRead) = some s ∧
        s.world.journal =
          J₁ ++ .returned 2 (.read Sample.path) (.read (.ok r)) after time :: J₂ ∧
        r.stale = true :=
    ⟨_, [_, _, _, _, _, _, _, _], _, _, _, [], rfl, rfl, rfl⟩
  obtain ⟨hpath, hflag, -⟩ := run_reads_honest hrun J₁ 2 Sample.path r after time J₂ hs
  exact ⟨s, J₁, r, after, time, J₂, hrun, hs, hpath, hflag, hstale⟩

end Federation

/-! ## Writes -/

/-- The writes of a journal keep the discipline of the wire. -/
structure WireDiscipline (fromStr : String → Except String Json) (J : List Entry) : Prop where
  /-- A `vault_write` is sent during its call, the first of its call, with the call's path and
  content and the token of the standing confirmation. -/
  offered : ∀ J₁ n rid conn path content expected J₂,
    J = J₁ ++ .sent n rid conn (.vaultWrite path content expected) :: J₂ →
      (∃ before, .called n (.write path content) before ∈ J₁) ∧ Unreturned n J₁ ∧
      writesOf n J₁ = [] ∧ ∃ k, Standing fromStr J₁ path k ∧ k.version = expected
  /-- A call sends one `vault_write` at most. -/
  single : ∀ n, (writesOf n J).length ≤ 1
  /-- A write whose reconnect failed is muted at once, sends none ever, and leaves the cache. -/
  reconnectFailed : ∀ J₁ n path content before e J₂,
    .called n (.write path content) before ∈ J → J = J₁ ++ .connected n (.error e) :: J₂ →
      writesOf n J = [] ∧ ∃ after time J₃, after.cache = before.cache ∧
        J₂ = .returned n (.write path content) (.write (.error .muted)) after time :: J₃
  /-- A write without a copy sends none ever, and leaves the cache. -/
  mustRead : ∀ n op path before after time,
    .called n op before ∈ J →
    .returned n op (.write (.error (.mustReadFirst path))) after time ∈ J →
      writesOf n J = [] ∧ after.cache = before.cache

/-- What the discipline is for: applied writes replace the version they name, and a conflict changed
nothing and shows the note as the re-read found it. -/
structure WriteSafety (fromStr : String → Except String Json) (J : List Entry) : Prop where
  /-- An applied write replaced the version of the token it was sent with. -/
  applied : ∀ rid path content expected note reply version,
    .served rid (.vaultWrite path content expected) note reply (some version) ∈ J →
      ∃ J₁ n conn J₂ k, J = J₁ ++ .sent n rid conn (.vaultWrite path content expected) :: J₂ ∧
        Standing fromStr J₁ path k ∧ k.version = versionOf note
  /-- A write that returned a conflict changed nothing, and never will; the copy it returns and the
  one it keeps are the note as the server showed it for the re-read. -/
  conflict : ∀ J₁ n path content fresh after time J₂,
    J = J₁ ++ .returned n (.write path content) (.write (.ok (.conflict fresh))) after time :: J₂ →
      ¬ Applied n J ∧
      ∃ J₀ rid text note wrote k,
        J₁ = J₀ ++ [.answered n (some rid) (.vaultRead path) (.ok (text, false)) time] ∧
        .served rid (.vaultRead path) note (.ok (text, false)) wrote ∈ J₀ ∧
        fresh = ⟨path, contentOf note, versionOf note, false⟩ ∧
        after.cache path = some k ∧ k.content = contentOf note ∧ k.version = versionOf note

section

variable {fromStr : String → Except String Json} {J : List Entry}

theorem Lawful.wireDiscipline (h : Lawful fromStr J) : WireDiscipline fromStr J where
  offered := by
    intro J₁ n rid conn path content expected J₂ hs
    obtain ⟨hopen, -, hwrite⟩ := h.rule hs
    obtain ⟨hcalled, hnone, k, hk, hversion⟩ := hwrite path content expected rfl
    exact ⟨hcalled, hopen, hnone, k, cacheOf_eq_some.mp hk, hversion⟩
  single := h.writesOf_length
  reconnectFailed := by
    intro J₁ n path content before e J₂ hcalled hs
    obtain ⟨m, op, outcome, after, time, J₃, before', rfl, hcalled', -, hending⟩ :=
      h.closed hs trivial
    obtain rfl : n = m := Option.some.inj hending.callNo?
    have hs' := eq_snoc_append hs
    obtain ⟨rfl, rfl⟩ := h.called_unique hcalled (mem_of_eq_append hs' hcalled')
    have hended : writesOf n J = writesOf n J₁ := h.writesOf_ended hs' hending
    cases hending with
    | mustRead hopen => rcases hopen with ⟨op, before, heq⟩ | ⟨conn, heq⟩ <;> cases heq
    | refused hnone hcache => exact ⟨hended.trans hnone, after, time, J₃, hcache, rfl⟩
  mustRead := by
    intro n op path before after time hcalled hret
    obtain ⟨J₁, J₂, rfl⟩ := List.append_of_mem hret
    obtain ⟨J₀, last, before', rfl, hcalled', -, hending⟩ := h.ending rfl
    obtain ⟨-, rfl⟩ := h.called_unique hcalled (List.mem_append_left _ hcalled')
    obtain ⟨-, hnone, hcache⟩ := hending.of_mustRead
    exact ⟨(h.writesOf_ended rfl hending).trans hnone, hcache⟩

theorem Lawful.writeSafety (h : Lawful fromStr J) (genuine : Genuine J) (cas : CompareAndSet J)
    (errors : ErrsUnwritten J) (shows : ShowsNotes fromStr J) : WriteSafety fromStr J where
  applied := by
    intro rid path content expected note reply version hserved
    obtain ⟨J₁, n, conn, J₂, hs⟩ := h.sent_of_served hserved
    obtain ⟨-, -, -, k, hk, hversion⟩ := h.wireDiscipline.offered _ _ _ _ _ _ _ _ hs
    exact ⟨J₁, n, conn, J₂, k, hs, hk, hversion.trans (cas.current hserved).symm⟩
  conflict := by
    intro J₁ n path content fresh after time J₂ hs
    obtain ⟨J₀, last, before, rfl, -, hcache, hending⟩ := h.ending hs
    have hended : writesOf n J = writesOf n J₀ := h.writesOf_ended hs hending
    cases hending with
    | @conflict rid reply _ time' _ _ text' expected wid k _ hk hwrites hrefused =>
      have hs' := eq_append_cons hs
      have hwrites' : writesOf n J = [(wid, .vaultWrite path content expected)] :=
        hended.trans hwrites
      have hrefused' := mem_of_eq_append hs' hrefused
      obtain ⟨-, text, body, rfl, hbody, rfl⟩ := Entry.of_confirms_read hk
      obtain ⟨rid, rfl⟩ := (h.rule hs').2 _ rfl
      obtain ⟨note, wrote, hserved⟩ := genuine.served hs'
      obtain ⟨hcontent, hversion⟩ := shows.shown (mem_of_eq_append hs' hserved) hbody
      refine ⟨h.not_applied_of_refused genuine errors hwrites' hrefused', ?_⟩
      refine ⟨J₀, rid, text, note, wrote,
        ⟨(body.getStr "content").getD "", body.getStr "expectedVersion", time⟩, rfl, hserved, ?_, ?_,
        hcontent, hversion⟩
      · rw [hcontent, hversion]
      · rw [hcache, cacheOf_snoc, Entry.learn_of_confirms hk]
        exact Cache.insert_same _ _ _

end

namespace Federation

variable {fromStr : String → Except String Json} {vault : String → Option Note} {tr : List Event}
  {s : Federation (Program Ask Ask.Answer (Outcome × VaultClient))}

/-- **Write discipline on the wire.** In every run the writes keep the discipline; and against a
server that compares and sets, answers `isError` only when it wrote nothing, and shows notes as they
are, what is applied replaces the version offered, and a conflict changed nothing. -/
theorem run_disciplined (h : (machine fromStr).run (init vault) tr = some s) :
    WireDiscipline fromStr s.world.journal ∧
      (Genuine s.world.journal → CompareAndSet s.world.journal → ErrsUnwritten s.world.journal →
        ShowsNotes fromStr s.world.journal → WriteSafety fromStr s.world.journal) :=
  ⟨(run_lawful h).wireDiscipline, (run_lawful h).writeSafety⟩

/-- The run of a write that meets a human edit. -/
def conflictEvents : List Event :=
  Sample.firstRead ++ Sample.humanEdit :: .call (.write Sample.path "third") ::
    Sample.exchange 1 Sample.refused none ++ Sample.exchange 2 (Sample.shown "second" "v2") none

/-- One request, one conflict, and nothing changed. -/
theorem run_disciplined_sample :
    ∃ s, (machine Sample.fromStr).run (init Sample.vault) conflictEvents = some s ∧
      (writesOf 2 s.world.journal).length = 1 ∧ WireDiscipline Sample.fromStr s.world.journal ∧
      WriteSafety Sample.fromStr s.world.journal := by
  obtain ⟨s, hrun, hs⟩ :
      ∃ s, (machine Sample.fromStr).run (init Sample.vault) conflictEvents = some s ∧
        s.world.journal = Sample.journal conflictEvents := ⟨_, rfl, rfl⟩
  obtain ⟨hwire, hsafe⟩ := run_disciplined hrun
  refine ⟨s, hrun, by rw [hs]; rfl, hwire, ?_⟩
  rw [hs] at hsafe ⊢
  exact hsafe (by decide) (by decide) (by decide) (by decide)

end Federation

end GooseClaw
