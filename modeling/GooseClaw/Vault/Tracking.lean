import GooseClaw.Found.Versioned
import GooseClaw.Vault.Posts

/-!
# The rig and the world of the federation

`Rig.Shares` relates the rig to a world of the federation: the same client, clock and vault, a journal in
which the server kept its promises, on every connection what the journal says, and a record of all edits
in which the versions of the journal name contents. `Rig.Tracks` adds the call in progress.

The lemmas take the operations one by one: an entry of the journal, a connection that changes, a request
that goes on the wire, a line the server takes up, an edit.
-/

namespace GooseClaw

open Found

/-! ## What is in the journal -/

namespace Entry

/-- A served call found or left the note of the path at the version. -/
def Shows (path : String) (n : UInt64) : Entry → Prop
  | .served _ call note _ wrote => call.path = path ∧
      (versionOf note = some (versionText n) ∨ wrote = some (versionText n))
  | _ => False

/-- A served call finds its note at the latest version shown so far, or a later one, and a write leaves
it at a later one. -/
def Forward (J : List Entry) : Entry → Prop
  | .served _ call note _ wrote =>
    (∀ e ∈ J, ∀ m, e.Shows call.path m → ∃ n, versionOf note = some (versionText n) ∧ m ≤ n) ∧
      ∀ version, wrote = some version → ∃ n, version = versionText n ∧
        ∀ m, versionOf note = some (versionText m) → m < n
  | _ => True

/-- A successful `vault_read` found a note. -/
def Finds : Entry → Prop
  | .served _ (.vaultRead _) note (.ok (_, false)) _ => note.isSome = true
  | _ => True

/-- The entry keeps the promises of a server. -/
structure Kept (serde : JsonSerde) (J : List Entry) (e : Entry) : Prop where
  genuine : e.isGenuine J = true
  comparesAndSets : e.comparesAndSets = true
  errsUnwritten : e.errsUnwritten = true
  showsNote : e.showsNote serde.fromStr = true
  namesWritten : e.namesWritten serde.fromStr = true
  forward : e.Forward J
  finds : e.Finds

/-- The note is what some version of the path names in the record of edits. -/
def Names (log : List (String × String)) (path : String) (note : Note) : Prop :=
  ∃ n : UInt64, note.version = versionText n ∧ named log path n.toNat = some note.content

/-- The notes a served call saw and wrote are in the record. -/
def Dated (log : List (String × String)) : Entry → Prop
  | .served _ call note _ wrote =>
    (∀ x, note = some x → Names log call.path x) ∧
      ∀ version, wrote = some version → ∃ path content expected,
        call = .vaultWrite path content expected ∧ Names log path ⟨content, version⟩
  | _ => True

/-- What the caller got. -/
def returnOf : Entry → Option (Op × Outcome)
  | .returned _ op outcome _ _ => some (op, outcome)
  | _ => none

/-- The line in the operations log. -/
def opOf : Entry → Option String
  | .served _ call _ _ _ => some (FakeVault.opOf call)
  | _ => none

theorem Names.mono {log log' : List (String × String)} {path : String} {note : Note}
    (h : Names log path note) (hlog : log <+: log') : Names log' path note := by
  obtain ⟨n, hversion, hnamed⟩ := h
  exact ⟨n, hversion, named_mono hlog hnamed⟩

theorem Dated.mono {log log' : List (String × String)} {e : Entry} (h : e.Dated log)
    (hlog : log <+: log') : e.Dated log' := by
  cases e with
  | served rid call note reply wrote =>
    refine ⟨fun x hx => (h.1 x hx).mono hlog, ?_⟩
    intro version hwrote
    obtain ⟨path, content, expected, hcall, hnames⟩ := h.2 version hwrote
    exact ⟨path, content, expected, hcall, hnames.mono hlog⟩
  | _ => trivial

end Entry

/-! ## The relation -/

/-- What was written on each connection, where each tool call is, and the record of edits. -/
structure Posted where
  posts : ConnId → List Post
  place : Nat → ConnId × UInt64
  log : List (String × String)

namespace Posted

def new : Posted := ⟨fun _ => [], fun _ => (0, 0), []⟩

def withPosts (g : Posted) (k : ConnId) (posts : List Post) : Posted :=
  { g with posts := fun j => if j = k then posts else g.posts j }

@[simp] theorem withPosts_same (g : Posted) (k : ConnId) (posts : List Post) :
    (g.withPosts k posts).posts k = posts := if_pos rfl

theorem withPosts_other (g : Posted) {j k : ConnId} (posts : List Post) (h : j ≠ k) :
    (g.withPosts k posts).posts j = g.posts j := if_neg h

end Posted

/-- The rig and the world of the federation, apart from the call in progress. `count` is how many steps
the rig has made. -/
structure Rig.Shares (serde : JsonSerde) (count : Nat) (s : Rig) (w : World) (g : Posted) : Prop where
  client : w.client = s.client
  time : w.time = s.time
  vault : ∀ p, w.vault p = (s.vault.notes p).map vaultNote
  log : ∀ p, (s.vault.notes p).map (fun e => (e.1, e.2.toNat)) = register g.log p
  short : g.log.length ≤ count
  links : ∀ (k : ConnId) (link : Link), s.links[k]? = some link →
    link.Tracks w.journal w.inFlight count (g.posts k)
  placed : ∀ k id rid call, .tool id rid call ∈ g.posts k →
    g.place rid = (k, id) ∧ rid < w.requests
  flying : ∀ rid call, (rid, call) ∈ w.inFlight → rid < w.requests
  kept : Every (Entry.Kept serde) w.journal
  dated : ∀ e ∈ w.journal, e.Dated g.log
  returns : s.returns = w.journal.filterMap Entry.returnOf
  ops : s.vault.ops = w.journal.filterMap Entry.opOf

/-- The call in progress awaits the same in both. -/
def RigCall.Awaits (links : List Link) (posts : ConnId → List Post) (r : RigCall)
    (request : Option Nat) : Prop :=
  match r.waiting with
  | some (k, .tool) => ∃ link rid call next, links[k]? = some link ∧
      r.process.view = .waiting (.callTool k call) next ∧ request = some rid ∧
      .tool link.conn.nextId rid call ∈ posts k
  | _ => request = none

/-- The rig and the federation are at the same point. -/
structure Rig.Tracks (serde : JsonSerde) (count : Nat) (s : Rig)
    (t : Federation (Program Ask Ask.Answer (Outcome × VaultClient))) (g : Posted) : Prop where
  shares : s.Shares serde count t.world g
  running : Option.Rel (fun r q => q.op = r.op ∧ q.process = r.process ∧
    r.Awaits s.links g.posts q.request) s.running t.running

/-! ## Every step is followed -/

/-- An entry that is neither a serving nor an answer promises nothing. -/
theorem Entry.Kept.of_quiet {serde : JsonSerde} {J : List Entry} {e : Entry}
    (hserved : ∀ rid call note reply wrote, e ≠ .served rid call note reply wrote)
    (hanswered : ∀ n rid call r time, e ≠ .answered n rid call (.ok r) time) : e.Kept serde J := by
  cases e with
  | served rid call note reply wrote => exact absurd rfl (hserved rid call note reply wrote)
  | answered n rid call reply time =>
    cases reply with
    | ok r => exact absurd rfl (hanswered n rid call r time)
    | error e => cases rid <;> exact ⟨rfl, rfl, rfl, rfl, rfl, trivial, trivial⟩
  | _ => exact ⟨rfl, rfl, rfl, rfl, rfl, trivial, trivial⟩

/-- Only a note that is there is read. -/
theorem FakeVault.finds_servedEntry (v : FakeVault) (serde : JsonSerde) (rid : Nat)
    (call : ToolCall) : (v.servedEntry serde rid call).Finds := by
  unfold servedEntry
  rcases v.answer_cases serde call with ⟨path, content, n, rfl, hnote, heq⟩ |
    ⟨path, content, expected, n, rfl, -, -, heq⟩ | ⟨text, heq⟩
  · rw [heq]
    simp only [Entry.Finds, ToolCall.path, hnote, Option.map_some, Option.isSome_some]
  · trivial
  · rw [heq]
    cases call <;> trivial

namespace Rig

variable {serde : JsonSerde} {count : Nat} {s : Rig} {w : World} {g : Posted}

theorem Shares.mono (h : s.Shares serde count w g) : s.Shares serde (count + 1) w g :=
  { h with
    short := Nat.le_succ_of_le h.short
    links := fun k link hlink => (h.links k link hlink).mono (fun _ he => he) (Nat.le_succ count) }

/-- An entry about the client. -/
theorem Shares.entry (h : s.Shares serde count w g) {e : Entry} (kept : e.Kept serde w.journal)
    (dated : e.Dated g.log) (hret : e.returnOf = none) (hop : e.opOf = none) :
    s.Shares serde count (w.record e) g :=
  { h with
    links := fun k link hlink =>
      (h.links k link hlink).mono (fun _ he => List.mem_append_left _ he) (Nat.le_refl count)
    kept := every_snoc.mpr ⟨h.kept, kept⟩
    dated := by
      intro e' he'
      rcases mem_snoc.mp he' with hold | rfl
      · exact h.dated e' hold
      · exact dated
    returns := by
      show _ = (w.journal ++ [e]).filterMap _
      rw [filterMap_snoc, hret, ← h.returns]
      exact (List.append_nil _).symm
    ops := by
      show _ = (w.journal ++ [e]).filterMap _
      rw [filterMap_snoc, hop, ← h.ops]
      exact (List.append_nil _).symm }

theorem Shares.called (h : s.Shares serde count w g) (op : Op) :
    s.Shares serde count (w.began op) g :=
  { h.entry (e := .called (w.calls + 1) op w.client) (.of_quiet (by simp) (by simp)) trivial rfl rfl with }

theorem Shares.connected (h : s.Shares serde count w g) (n : Nat)
    (answer : Except ConnectError ConnId) :
    s.Shares serde count (w.record (.connected n answer)) g :=
  h.entry (.of_quiet (by simp) (by simp)) trivial rfl rfl

theorem Shares.failed (h : s.Shares serde count w g) (n : Nat) (rid : Option Nat) (call : ToolCall)
    (e : McpError) (time : Instant) :
    s.Shares serde count (w.record (.answered n rid call (.error e) time)) g :=
  h.entry (.of_quiet (by simp) (by simp)) trivial rfl rfl

/-- An answer that arrives is one that was given. -/
theorem Shares.answered (h : s.Shares serde count w g) (n rid : Nat) {call : ToolCall}
    {body : String × Bool} (time : Instant) {note : Option Note} {wrote : Option String}
    (hserved : .served rid call note (.ok body) wrote ∈ w.journal) :
    s.Shares serde count (w.record (.answered n (some rid) call (.ok body) time)) g := by
  refine h.entry ⟨?_, rfl, rfl, rfl, rfl, trivial, trivial⟩ trivial rfl rfl
  exact List.any_eq_true.mpr ⟨_, hserved, decide_eq_true ⟨rfl, rfl, rfl⟩⟩

/-- The call in progress returns. -/
theorem Shares.ended (h : s.Shares serde count w g) (op : Op) (outcome : Outcome)
    (c : VaultClient) :
    ({ s with client := c, running := none, returns := s.returns ++ [(op, outcome)] } : Rig).Shares
      serde count (w.ended op outcome c) g :=
  { h with
    client := rfl
    links := fun k link hlink =>
      (h.links k link hlink).mono (fun _ he => List.mem_append_left _ he) (Nat.le_refl count)
    kept := every_snoc.mpr ⟨h.kept, .of_quiet nofun nofun⟩
    dated := by
      intro e' he'
      rcases mem_snoc.mp he' with hold | rfl
      · exact h.dated e' hold
      · trivial
    returns := by
      show s.returns ++ [(op, outcome)] = (w.journal ++ [_]).filterMap _
      rw [filterMap_snoc, ← h.returns]
      rfl
    ops := by
      show _ = (w.journal ++ [_]).filterMap _
      rw [filterMap_snoc, ← h.ops]
      exact (List.append_nil _).symm }

/-- The call goes on in both, or returns in both. -/
theorem Shares.proceed (h : s.Shares serde count w g) (op : Op)
    (p : Program Ask Ask.Answer (Outcome × VaultClient)) :
    (s.proceed op p).Tracks serde count (Federation.proceed Program.view w op p) g := by
  unfold Rig.proceed Federation.proceed
  cases p.view with
  | done result => exact ⟨h.ended op result.1 result.2, .none⟩
  | waiting q next => exact ⟨{ h with }, .some ⟨rfl, rfl, rfl⟩⟩

/-- A connection changes. -/
theorem Shares.setLink (h : s.Shares serde count w g) {k : ConnId} {link : Link} {posts : List Post}
    (hlink : link.Tracks w.journal w.inFlight count posts)
    (hposts : ∀ id rid call, .tool id rid call ∈ posts →
      g.place rid = (k, id) ∧ rid < w.requests) :
    (s.setLink k link).Shares serde count w (g.withPosts k posts) :=
  { h with
    links := by
      intro j link' hlink'
      change (s.links.set k link)[j]? = some link' at hlink'
      by_cases hjk : j = k
      · subst hjk
        rw [List.getElem?_set_self'] at hlink'
        obtain ⟨_, -, rfl⟩ := Option.map_eq_some_iff.mp hlink'
        rw [Posted.withPosts_same]
        exact hlink
      · rw [List.getElem?_set_ne (Ne.symm hjk)] at hlink'
        rw [Posted.withPosts_other g posts hjk]
        exact h.links j link' hlink'
    placed := by
      intro j id rid call hmem
      by_cases hjk : j = k
      · subst hjk
        rw [Posted.withPosts_same] at hmem
        exact hposts id rid call hmem
      · rw [Posted.withPosts_other g posts hjk] at hmem
        exact h.placed j id rid call hmem }

/-- A connection is dialled. -/
theorem Shares.dialled (h : s.Shares serde count w g) (r : RigCall) (stage : Stage) :
    (({ s with links := s.links ++ [Link.dialled] } : Rig).await r s.links.length stage).Shares serde
      (count + 1) w (g.withPosts s.links.length [.discover 1]) :=
  { h.mono with
    links := by
      intro j link' hlink'
      change (s.links ++ [Link.dialled])[j]? = some link' at hlink'
      by_cases hj : j = s.links.length
      · subst hj
        rw [List.getElem?_concat_length] at hlink'
        cases hlink'
        rw [Posted.withPosts_same]
        exact Link.tracks_dialled _ _ (Nat.succ_pos count)
      · rw [Posted.withPosts_other g _ hj]
        refine h.mono.links j link' ?_
        rw [List.getElem?_append] at hlink'
        split at hlink'
        · exact hlink'
        · next hge =>
          have hlen : j - s.links.length ≠ 0 :=
            Nat.sub_ne_zero_of_lt (Nat.lt_of_le_of_ne (Nat.not_lt.mp hge) (Ne.symm hj))
          rw [List.getElem?_singleton, if_neg hlen] at hlink'
          cases hlink'
    placed := by
      intro j id rid call hmem
      by_cases hj : j = s.links.length
      · subst hj
        rw [Posted.withPosts_same] at hmem
        cases List.mem_singleton.mp hmem
      · rw [Posted.withPosts_other g _ hj] at hmem
        exact h.placed j id rid call hmem }

/-- A tool call goes on the wire. -/
theorem Shares.sent (h : s.Shares serde count w g) (k : ConnId) (call : ToolCall) (id : UInt64) :
    s.Shares serde count (w.sent k call)
      { g with place := fun rid => if rid = w.requests then (k, id) else g.place rid } :=
  { h with
    links := by
      intro j link hlink
      have htracks := (h.links j link hlink).mono
        (fun _ he => List.mem_append_left [Entry.sent w.calls w.requests k call] he)
        (Nat.le_refl count)
      refine { htracks with untaken := ?_ }
      intro id' rid call' hmem
      show (w.inFlight ++ [_]).lookup rid = _
      rw [List.lookup_append, htracks.untaken id' rid call' hmem, Option.some_or]
    placed := by
      intro j id' rid call' hmem
      obtain ⟨hplace, hlt⟩ := h.placed j id' rid call' hmem
      exact ⟨(if_neg (Nat.ne_of_lt hlt)).trans hplace, Nat.lt_succ_of_lt hlt⟩
    flying := by
      intro rid call' hmem
      rcases mem_snoc.mp hmem with hold | hnew
      · exact Nat.lt_succ_of_lt (h.flying rid call' hold)
      · cases hnew
        exact Nat.lt_succ_self _
    kept := every_snoc.mpr ⟨h.kept, .of_quiet nofun nofun⟩
    dated := by
      intro e' he'
      rcases mem_snoc.mp he' with hold | rfl
      · exact h.dated e' hold
      · trivial
    returns := by
      show _ = (w.journal ++ [_]).filterMap _
      rw [filterMap_snoc, ← h.returns]
      exact (List.append_nil _).symm
    ops := by
      show _ = (w.journal ++ [_]).filterMap _
      rw [filterMap_snoc, ← h.ops]
      exact (List.append_nil _).symm }

/-- The number of a new request is free. -/
theorem Shares.lookup_new (h : s.Shares serde count w g) (call : ToolCall) :
    (w.inFlight ++ [(w.requests, call)]).lookup w.requests = some call := by
  have hnone : w.inFlight.lookup w.requests = none := by
    rw [List.lookup_eq_none_iff]
    intro e he
    rw [bne_iff_ne]
    exact Nat.ne_of_gt (h.flying e.1 e.2 he)
  rw [List.lookup_append, hnone, Option.none_or, List.lookup_cons, beq_self_eq_true]

/-! ### Edits -/

/-- The next version of a note. -/
theorem Shares.next_version (h : s.Shares serde count w g) (hcount : count + 1 < UInt64.size)
    (path : String) {n : UInt64}
    (hn : n = ((s.vault.notes path).map fun e => e.2 + 1).getD 1) :
    n.toNat = versionNo g.log path + 1 := by
  have hlog := h.log path
  cases hnote : s.vault.notes path with
  | none =>
    rw [hnote] at hlog hn
    rw [versionNo_of_register_none hlog.symm, hn]
    rfl
  | some entry =>
    rw [hnote] at hlog hn
    have hversion : versionNo g.log path = entry.2.toNat := versionNo_of_register hlog.symm
    have hbound : entry.2.toNat + 1 < UInt64.size := by
      have hle := versionNo_le_length g.log path
      have hshort := h.short
      omega
    have hnext : n = entry.2 + 1 := hn
    rw [hversion, hnext, UInt64.toNat_add]
    exact Nat.mod_eq_of_lt hbound

/-- An edit is the last write of the record. -/
theorem Shares.edited_log (h : s.Shares serde count w g) {path content : String} {n : UInt64}
    (hn : n.toNat = versionNo g.log path + 1) (p : String) :
    ((if p = path then some (content, n) else s.vault.notes p).map fun e => (e.1, e.2.toNat)) =
      register (g.log ++ [(path, content)]) p := by
  by_cases hp : p = path
  · subst hp
    rw [if_pos rfl, register_snoc_same, ← hn]
    rfl
  · rw [if_neg hp, register_snoc_other _ _ (Ne.symm hp)]
    exact h.log p

/-- The human edits the vault. -/
theorem Shares.humanEdit (h : s.Shares serde count w g) (hcount : count + 1 < UInt64.size)
    (path content : String) :
    ∃ note, ({ s with vault := s.vault.humanEdit path content } : Rig).Shares serde (count + 1)
      (w.edited path note) { g with log := g.log ++ [(path, content)] } := by
  have hn := h.next_version hcount path rfl
  have hsame : ((s.vault.notes path).map Prod.snd).getD 0 + 1 =
      ((s.vault.notes path).map fun e => e.2 + 1).getD 1 := by
    cases s.vault.notes path <;> rfl
  have hlonger : g.log <+: g.log ++ [(path, content)] := List.prefix_append _ _
  refine ⟨some (vaultNote (content, ((s.vault.notes path).map Prod.snd).getD 0 + 1)),
    { h.mono with
      vault := ?_
      log := ?_
      short := ?_
      links := ?_
      kept := every_snoc.mpr ⟨h.kept, .of_quiet nofun nofun⟩
      dated := ?_
      returns := ?_
      ops := ?_ }⟩
  · intro p
    show (if p = path then _ else w.vault p) = (if p = path then _ else s.vault.notes p).map vaultNote
    split
    · rfl
    · exact h.vault p
  · exact h.edited_log (hsame ▸ hn)
  · rw [List.length_append]
    exact Nat.succ_le_succ h.short
  · exact fun k link hlink =>
      (h.mono.links k link hlink).mono (fun _ he => List.mem_append_left _ he) (Nat.le_refl _)
  · intro e he
    rcases mem_snoc.mp he with hold | rfl
    · exact (h.dated e hold).mono hlonger
    · trivial
  · show _ = (w.journal ++ [_]).filterMap _
    rw [filterMap_snoc, ← h.returns]
    exact (List.append_nil _).symm
  · show _ = (w.journal ++ [_]).filterMap _
    rw [filterMap_snoc]
    exact h.ops.trans (List.append_nil _).symm

/-! ### Servings -/

theorem lookup_filter_ne {l : List (Nat × ToolCall)} {rid rid' : Nat} (h : rid' ≠ rid) :
    (l.filter (·.1 ≠ rid)).lookup rid' = l.lookup rid' := by
  induction l with
  | nil => rfl
  | cons e l ih =>
    by_cases he : e.1 = rid
    · have hne : (rid' == e.1) = false := by
        rw [he]
        exact beq_eq_false_iff_ne.mpr h
      rw [List.filter_cons_of_neg (by simp [he]), ih, List.lookup_cons, hne]
    · rw [List.filter_cons_of_pos (by simp [he]), List.lookup_cons, List.lookup_cons, ih]

/-- The entry of the journal when the rig's server takes up a tool call. -/
theorem Shares.served_entry (h : s.Shares serde count w g) (rid : Nat) (call : ToolCall) :
    (w.served rid call (.ok (s.vault.answer serde.toString call).1)
        ((s.vault.answer serde.toString call).2.map versionText)).journal =
      w.journal ++ [s.vault.servedEntry serde rid call] := by
  have hwrote : World.wroteBy call ((s.vault.answer serde.toString call).2.map versionText) =
      (s.vault.answer serde.toString call).2.map versionText := by
    rcases s.vault.answer_cases serde call with ⟨path, content, n, rfl, -, heq⟩ |
      ⟨path, content, expected, n, rfl, -, -, heq⟩ | ⟨text, heq⟩
    · rw [heq]
      rfl
    · rfl
    · rw [heq]
      exact ite_self _
  show w.journal ++ [_] = _
  rw [hwrote, h.vault]
  rfl

/-- A note of the vault is what its version names. -/
theorem Shares.names (h : s.Shares serde count w g) {path : String} {note : Note}
    (hnote : (s.vault.notes path).map vaultNote = some note) : Entry.Names g.log path note := by
  obtain ⟨entry, hentry, rfl⟩ := Option.map_eq_some_iff.mp hnote
  have hlog := h.log path
  rw [hentry] at hlog
  exact ⟨entry.2, rfl, named_of_register hlog.symm⟩

/-- The notes only move forward. -/
theorem Shares.forward (h : s.Shares serde count w g) (hcount : count + 1 < UInt64.size) (rid : Nat)
    (call : ToolCall) : (s.vault.servedEntry serde rid call).Forward w.journal := by
  refine ⟨?_, ?_⟩
  · intro e he m hshows
    -- a version that was shown is in the record, so the note has one, and not an earlier one
    have hm : 0 < m.toNat ∧ m.toNat ≤ versionNo g.log call.path := by
      have hnamed : ∃ content, Entry.Names g.log call.path ⟨content, versionText m⟩ := by
        have hdated := h.dated e he
        cases e with
        | served rid' call' note reply wrote =>
          obtain ⟨hpath, hversion | hwrote⟩ := hshows
          · obtain ⟨x, rfl, hx⟩ := Option.map_eq_some_iff.mp hversion
            exact ⟨x.content, hx ▸ hpath ▸ hdated.1 x rfl⟩
          · obtain ⟨path, content, expected, rfl, hnames⟩ := hdated.2 _ hwrote
            exact ⟨content, hpath ▸ hnames⟩
        | _ => exact hshows.elim
      obtain ⟨content, n, hn, hnamed⟩ := hnamed
      obtain rfl := versionText_inj hn
      exact le_versionNo_of_named hnamed
    have hlog := h.log call.path
    cases hnote : s.vault.notes call.path with
    | none =>
      rw [hnote] at hlog
      rw [versionNo_of_register_none hlog.symm] at hm
      omega
    | some entry =>
      rw [hnote] at hlog
      refine ⟨entry.2, rfl, UInt64.le_iff_toNat_le.mpr ?_⟩
      rw [← versionNo_of_register hlog.symm]
      exact hm.2
  · intro version hwrote
    obtain ⟨n, hn, rfl⟩ := Option.map_eq_some_iff.mp hwrote
    refine ⟨n, rfl, ?_⟩
    rcases s.vault.answer_cases serde call with ⟨path, content, n', rfl, -, heq⟩ |
      ⟨path, content, expected, n', rfl, -, hn', heq⟩ | ⟨text, heq⟩
    · rw [heq] at hn
      cases hn
    · rw [heq] at hn
      obtain rfl := Option.some.inj hn
      intro m hm
      obtain ⟨x, hx, hversion⟩ := Option.map_eq_some_iff.mp hm
      obtain ⟨entry, hentry, rfl⟩ := Option.map_eq_some_iff.mp hx
      obtain rfl := versionText_inj hversion
      have hlog := h.log path
      change s.vault.notes path = _ at hentry
      rw [hentry] at hlog
      rw [UInt64.lt_iff_toNat_lt, h.next_version hcount path hn', versionNo_of_register hlog.symm]
      exact Nat.lt_succ_self _
    · rw [heq] at hn
      cases hn

/-- What was taken up is not on the wire any more, and the rest is. -/
theorem Shares.links_served (h : s.Shares serde count w g) {k : ConnId}
    {link : Link} (hlink : s.links[k]? = some link) {id : UInt64} {rid : Nat} {call : ToolCall}
    (hp : (g.posts k)[link.taken]? = some (.tool id rid call)) (j : ConnId) (link' : Link)
    (hlink' : (s.links.set k (link.took
      (some (FakeVault.response id (s.vault.answer serde.toString call).1))))[j]? = some link') :
    link'.Tracks (w.journal ++ [s.vault.servedEntry serde rid call])
      (w.inFlight.filter (·.1 ≠ rid)) (count + 1) (g.posts j) := by
  have hplace := h.placed k id rid call (List.mem_of_getElem? hp)
  have hmem : ∀ e ∈ w.journal, e ∈ w.journal ++ [s.vault.servedEntry serde rid call] :=
    fun e he => List.mem_append_left _ he
  have hother : ∀ {j id' rid' call'}, .tool id' rid' call' ∈ g.posts j → (j = k → id' ≠ id) →
      w.inFlight.lookup rid' = some call' →
        (w.inFlight.filter (·.1 ≠ rid)).lookup rid' = some call' := by
    intro j id' rid' call' hpost hne hflight
    have hrid : rid' ≠ rid := by
      rintro rfl
      obtain ⟨rfl, rfl⟩ := Prod.mk.inj ((h.placed _ _ _ _ hpost).1.symm.trans hplace.1)
      exact hne rfl rfl
    rw [lookup_filter_ne hrid]
    exact hflight
  by_cases hjk : j = k
  · subst hjk
    rw [List.getElem?_set_self'] at hlink'
    obtain ⟨_, -, rfl⟩ := Option.map_eq_some_iff.mp hlink'
    have htracks := (h.links j link hlink).mono hmem (Nat.le_succ count)
    refine htracks.took hp ?_ ?_
    · intro id' rid' call' hlater
      -- behind the line taken up the ids are higher
      have hdrop : (g.posts j).drop link.taken =
          .tool id rid call :: (g.posts j).drop (link.taken + 1) :=
        List.drop_eq_getElem_cons (List.getElem?_eq_some_iff.mp hp).1 ▸ by
          rw [(List.getElem?_eq_some_iff.mp hp).2]
      have hrising := htracks.rising.drop (i := link.taken)
      rw [hdrop] at hrising
      have hlt := List.rel_of_pairwise_cons hrising hlater id id' rfl rfl
      refine hother (List.mem_of_mem_drop hlater) (fun _ heq => ?_) ?_
      · exact absurd (heq ▸ hlt) (UInt64.lt_irrefl id)
      · refine htracks.untaken id' rid' call' ?_
        rw [hdrop]
        exact List.mem_cons_of_mem _ hlater
    · intro l hl
      cases hl
      exact ⟨_, _, _, rfl, List.mem_concat_self⟩
  · rw [List.getElem?_set_ne (Ne.symm hjk)] at hlink'
    have htracks := (h.links j link' hlink').mono hmem (Nat.le_succ count)
    exact { htracks with
      untaken := fun id' rid' call' hpost => hother (List.mem_of_mem_drop hpost)
        (fun heq => absurd heq hjk) (htracks.untaken id' rid' call' hpost) }

/-- **The server takes up a tool call**, in the rig and in the federation. -/
theorem Shares.served (lawful : serde.Lawful) (h : s.Shares serde count w g)
    (hcount : count + 1 < UInt64.size) {k : ConnId} {link : Link} (hlink : s.links[k]? = some link)
    {id : UInt64} {rid : Nat} {call : ToolCall}
    (hp : (g.posts k)[link.taken]? = some (.tool id rid call)) :
    ∃ log, ({ s.setLink k (link.took
        (some (FakeVault.response id (s.vault.answer serde.toString call).1))) with
        vault := s.vault.after serde.toString call } : Rig).Shares serde (count + 1)
      (w.served rid call (.ok (s.vault.answer serde.toString call).1)
        ((s.vault.answer serde.toString call).2.map versionText)) { g with log } := by
  have hjournal := h.served_entry rid call
  have hseen : ∀ x, (s.vault.notes call.path).map vaultNote = some x → Entry.Names g.log call.path x :=
    fun x hx => h.names hx
  -- what becomes of the vault and of the record
  obtain ⟨log, hlonger, hshort, hvault, hlog, hdated⟩ : ∃ log, g.log <+: log ∧
      log.length ≤ count + 1 ∧
      (∀ p, w.vaultAfter call ((s.vault.answer serde.toString call).2.map versionText) p =
        ((s.vault.after serde.toString call).notes p).map vaultNote) ∧
      (∀ p, ((s.vault.after serde.toString call).notes p).map (fun e => (e.1, e.2.toNat)) =
        register log p) ∧ (s.vault.servedEntry serde rid call).Dated log := by
    rcases s.vault.answer_cases serde call with ⟨path, content, n, rfl, -, heq⟩ |
      ⟨path, content, expected, n, rfl, -, hn, heq⟩ | ⟨text, heq⟩
    · refine ⟨g.log, List.prefix_rfl, Nat.le_succ_of_le h.short, h.vault, h.log, hseen, ?_⟩
      intro version hwrote
      rw [heq] at hwrote
      cases hwrote
    · have hnext := h.next_version hcount path hn
      refine ⟨g.log ++ [(path, content)], List.prefix_append _ _, ?_, ?_, ?_, ?_, ?_⟩
      · rw [List.length_append]
        exact Nat.succ_le_succ h.short
      · intro p
        simp only [World.vaultAfter, FakeVault.after, heq, Option.map_some]
        split
        · rfl
        · exact h.vault p
      · intro p
        simp only [FakeVault.after, heq]
        exact h.edited_log hnext p
      · exact fun x hx => (hseen x hx).mono (List.prefix_append _ _)
      · intro version hwrote
        rw [heq] at hwrote
        cases hwrote
        refine ⟨path, content, expected, rfl, n, rfl, ?_⟩
        rw [hnext]
        exact named_of_register (register_snoc_same g.log path content)
    · have hnotes : (s.vault.after serde.toString call).notes = s.vault.notes := by
        simp only [FakeVault.after, heq]
      refine ⟨g.log, List.prefix_rfl, Nat.le_succ_of_le h.short, ?_, ?_, hseen, ?_⟩
      · intro p
        rw [hnotes, heq, ← h.vault p]
        cases call <;> rfl
      · intro p
        rw [hnotes]
        exact h.log p
      · intro version hwrote
        rw [heq] at hwrote
        cases hwrote
  refine ⟨log, { h with
    vault := hvault
    log := hlog
    short := hshort
    links := ?_
    flying := fun rid' call' hmem => h.flying rid' call' (List.mem_of_mem_filter hmem)
    kept := ?_
    dated := ?_
    returns := ?_
    ops := ?_ }⟩
  · intro j link' hlink'
    rw [hjournal]
    exact h.links_served hlink hp j link' hlink'
  · rw [hjournal]
    exact every_snoc.mpr ⟨h.kept, rfl, s.vault.comparesAndSets_servedEntry serde rid call,
      s.vault.errsUnwritten_servedEntry serde rid call,
      s.vault.showsNote_servedEntry rid call lawful,
      s.vault.namesWritten_servedEntry rid call lawful, h.forward hcount rid call,
      s.vault.finds_servedEntry serde rid call⟩
  · rw [hjournal]
    intro e he
    rcases mem_snoc.mp he with hold | rfl
    · exact (h.dated e hold).mono hlonger
    · exact hdated
  · rw [hjournal, filterMap_snoc, ← h.returns]
    exact (List.append_nil _).symm
  · rw [hjournal, filterMap_snoc, ← h.ops]
    rfl

end Rig

end GooseClaw
