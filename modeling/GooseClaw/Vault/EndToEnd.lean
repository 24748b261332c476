import GooseClaw.Vault.Refinement

/-!
# The client and the fake vault, end to end

What `Vault.Refinement` shows of one step, carried over whole runs: every run of the rig is a run of the
federation (`Rig.run_refines`), and there the server has kept every promise a law of the federation may
ask for. What the laws assume of a server is therefore met by one, whatever the order in which lines are
taken up, deadlines pass, tasks are aborted, Alfred comes back and the human edits.
-/

namespace GooseClaw

open Found

/-- The server kept its promises. -/
structure KeepsPromises (fromStr : String → Except String Json) (J : List Entry) : Prop where
  genuine : Genuine J
  cas : CompareAndSet J
  errors : ErrsUnwritten J
  shows : ShowsNotes fromStr J
  names : NamesWritten fromStr J
  tokens : ∃ token, KeepsTokens token J

/-- The content a version stands for in a record of edits; without a version there is none. -/
noncomputable def tokenOf (log : List (String × String)) (path : String) : Option String → String
  | none => ""
  | some version =>
    (named log path (Classical.epsilon fun n : UInt64 => version = versionText n).toNat).getD ""

theorem Entry.Names.content_eq {log : List (String × String)} {path : String} {note : Note}
    (h : Names log path note) : note.content = tokenOf log path (some note.version) := by
  obtain ⟨n, hversion, hnamed⟩ := h
  have hn : note.version = versionText
      (Classical.epsilon fun n : UInt64 => note.version = versionText n) :=
    Classical.epsilon_spec (p := fun n : UInt64 => note.version = versionText n) ⟨n, hversion⟩
  have heq := versionText_inj (hversion.symm.trans hn)
  rw [tokenOf, ← heq, hnamed, Option.getD_some]

/-- In a record of edits a version stands for one content. -/
theorem keepsTokens_of_dated {log : List (String × String)} {J : List Entry}
    (h : ∀ e ∈ J, e.Dated log) : KeepsTokens (tokenOf log) J := by
  intro e he
  have hdated := h e he
  have hnote : ∀ path note, (∀ x, note = some x → Entry.Names log path x) →
      contentOf note = tokenOf log path (versionOf note) := by
    intro path note hnames
    cases note with
    | none => rfl
    | some x => exact (hnames x rfl).content_eq
  cases e with
  | served rid call note reply wrote =>
    cases call with
    | vaultRead path => exact decide_eq_true (hnote path note hdated.1)
    | vaultWrite path content expected =>
      refine decide_eq_true ⟨hnote path note hdated.1, ?_⟩
      cases wrote with
      | none => exact .inl rfl
      | some version =>
        obtain ⟨path', content', expected', hcall, hnames⟩ := hdated.2 version rfl
        cases hcall
        exact .inr hnames.content_eq
  | _ => rfl

/-- The promises are kept in a journal each entry of which keeps them. -/
theorem keepsPromises_of_kept {serde : JsonSerde} {log : List (String × String)} {J : List Entry}
    (h : Every (Entry.Kept serde) J) (dated : ∀ e ∈ J, e.Dated log) :
    KeepsPromises serde.fromStr J := by
  have kept : ∀ e ∈ J, ∃ J₁, e.Kept serde J₁ := by
    intro e he
    obtain ⟨J₁, J₂, hs⟩ := List.append_of_mem he
    exact ⟨J₁, h J₁ e J₂ hs⟩
  refine ⟨?_, ?_, ?_, ?_, ?_, _, keepsTokens_of_dated dated⟩
  · exact fun J₁ e J₂ hs => (h J₁ e J₂ hs).genuine
  · exact fun e he => (kept e he).elim fun _ hkept => hkept.comparesAndSets
  · exact fun e he => (kept e he).elim fun _ hkept => hkept.errsUnwritten
  · exact fun e he => (kept e he).elim fun _ hkept => hkept.showsNote
  · exact fun e he => (kept e he).elim fun _ hkept => hkept.namesWritten

namespace Rig

variable {serde : JsonSerde} {tr : List RigEvent} {s : Rig}

theorem tracks_new : Rig.new.Tracks serde 0 (Federation.init fun _ => none) .new where
  shares :=
    { client := rfl
      time := rfl
      vault := fun _ => rfl
      log := fun _ => rfl
      short := Nat.le_refl _
      links := fun k link hlink => by cases hlink
      placed := fun _ _ _ _ hmem => by cases hmem
      flying := fun _ _ hmem => by cases hmem
      kept := every_nil _
      dated := List.forall_mem_nil _
      returns := rfl
      ops := rfl }
  running := .none

/-- Every run of the rig is followed in the federation. -/
theorem run_tracks (lawful : serde.Lawful) (h : (machine serde).run new tr = some s)
    (short : tr.length < UInt64.size) :
    ∃ events t g, (Federation.machine serde.fromStr).run (Federation.init fun _ => none) events =
      some t ∧ s.Tracks serde tr.length t g := by
  suffices hR : ∃ events t, (Federation.machine serde.fromStr).run (Federation.init fun _ => none)
      events = some t ∧ (tr.length < UInt64.size → ∃ g, s.Tracks serde tr.length t g) by
    obtain ⟨events, t, hrun, htracks⟩ := hR
    obtain ⟨g, hg⟩ := htracks short
    exact ⟨events, t, g, hrun, hg⟩
  refine (machine serde).refinement (N := Federation.machine serde.fromStr)
    (R := fun tr s t => tr.length < UInt64.size → ∃ g, s.Tracks serde tr.length t g)
    (fun _ => ⟨.new, tracks_new⟩) ?_ h
  intro tr s e s' events t _ _ htracks hstep
  by_cases hlt : (tr ++ [e]).length < UInt64.size
  · rw [List.length_append] at hlt
    obtain ⟨g, hg⟩ := htracks (Nat.lt_of_succ_lt hlt)
    obtain ⟨fs, t', g', hfs, hg'⟩ := hg.step lawful hlt hstep
    refine ⟨fs, t', hfs, fun _ => ⟨g', ?_⟩⟩
    rw [List.length_append]
    exact hg'
  · exact ⟨[], t, rfl, fun h => absurd h hlt⟩

/-- The calls in progress are one. -/
theorem Tracks.running_map {count : Nat}
    {t : Federation (Program Ask Ask.Answer (Outcome × VaultClient))} {g : Posted}
    (h : s.Tracks serde count t g) :
    t.running.map (fun r => (r.op, r.process)) = s.running.map fun r => (r.op, r.process) := by
  have hrunning := h.running
  generalize s.running = running at hrunning
  generalize t.running = running' at hrunning
  cases hrunning with
  | none => rfl
  | some hq =>
    obtain ⟨hop, hprocess, -⟩ := hq
    rw [Option.map_some, Option.map_some, hop, hprocess]

/-- **The rig refines the federation.** Every run of the client against the fake vault, line by line, is
a run of the federation with the same client, clock, vault, returned calls and served calls, in which the
server kept its promises. -/
theorem run_refines (lawful : serde.Lawful) (h : (machine serde).run new tr = some s)
    (short : tr.length < UInt64.size) :
    ∃ events t, (Federation.machine serde.fromStr).run (Federation.init fun _ => none) events =
        some t ∧
      KeepsPromises serde.fromStr t.world.journal ∧
      t.world.client = s.client ∧ t.world.time = s.time ∧
      (∀ p, t.world.vault p = (s.vault.notes p).map vaultNote) ∧
      t.running.map (fun r => (r.op, r.process)) = s.running.map (fun r => (r.op, r.process)) ∧
      s.returns = t.world.journal.filterMap Entry.returnOf ∧
      s.vault.ops = t.world.journal.filterMap Entry.opOf := by
  obtain ⟨events, t, g, hrun, htracks⟩ := run_tracks lawful h short
  exact ⟨events, t, hrun, keepsPromises_of_kept htracks.shares.kept htracks.shares.dated, htracks.shares.client, htracks.shares.time,
    htracks.shares.vault, htracks.running_map, htracks.shares.returns, htracks.shares.ops⟩

end Rig

namespace Sample

/-- The human writes a note, and the caller reads it over a new connection and writes it. -/
def rigRun : List RigEvent :=
  [.humanEdit "n" "a", .call (.read "n"), .dial, .serve 0, .settle none, .serve 0, .settle none,
    .serve 0, .send, .serve 0, .settle none, .call (.write "n" "b"), .send, .serve 0, .settle none]

theorem rigRun_some : ∃ s, (Rig.machine compactText).run Rig.new rigRun = some s ∧
    s.returns.length = 2 ∧ s.vault.ops = ["read n", "write n"] := by
  have h : ((Rig.machine compactText).run Rig.new rigRun).any (fun s =>
      s.returns.length = 2 ∧ s.vault.ops = ["read n", "write n"]) = true := by decide +kernel
  obtain ⟨s, hrun, hs⟩ := (Option.any_eq_true _ _).mp h
  exact ⟨s, hrun, of_decide_eq_true hs⟩

end Sample

/-- The sample run in the federation. -/
theorem Rig.run_refines_sample :
    ∃ s, (machine compactText).run new Sample.rigRun = some s ∧ s.returns.length = 2 ∧
      ∃ events t,
        (Federation.machine compactText.fromStr).run (Federation.init fun _ => none) events =
          some t ∧
        KeepsPromises compactText.fromStr t.world.journal ∧
        t.world.client = s.client ∧ t.world.time = s.time ∧
        (∀ p, t.world.vault p = (s.vault.notes p).map vaultNote) ∧
        t.running.map (fun r => (r.op, r.process)) = s.running.map (fun r => (r.op, r.process)) ∧
        s.returns = t.world.journal.filterMap Entry.returnOf ∧
        s.vault.ops = t.world.journal.filterMap Entry.opOf := by
  obtain ⟨s, hrun, hreturns, -⟩ := Sample.rigRun_some
  exact ⟨s, hrun, hreturns, run_refines compactText_lawful hrun (by decide)⟩

end GooseClaw
