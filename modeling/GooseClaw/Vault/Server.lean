import GooseClaw.Vault.Laws

/-!
# What a server may promise

The client's own laws hold against any server. What its callers want of it, though, needs a server that
keeps its side: replies that reach the client unchanged, a compare-and-set on the version token, reads
that show the note, and tokens that stand for one content each. Each promise is a statement about the
journal, so a theorem can ask for just the ones it uses.
-/

namespace GooseClaw

open Found

/-- The content of a note; an absent note reads as empty. -/
def contentOf (note : Option Note) : String := (note.map Note.content).getD ""

/-- The version token of a note; an absent note has none. -/
def versionOf (note : Option Note) : Option String := note.map Note.version

/-! ## Promises -/

namespace Entry

/-- The server answered the request so. -/
def gave (rid : Nat) (call : ToolCall) (r : String × Bool) : Entry → Bool
  | .served rid' call' _ (.ok r') _ => rid' = rid ∧ call' = call ∧ r' = r
  | _ => false

/-- The server wrote a note. -/
def writes : Entry → Bool
  | .served _ _ _ _ (some _) => true
  | _ => false

/-- A reply that arrived is one the server gave to that request before. -/
def isGenuine (J : List Entry) : Entry → Bool
  | .answered _ (some rid) call (.ok r) _ => J.any (gave rid call r)
  | _ => true

/-- A write was applied only if its `expectedVersion` was the note's version. -/
def comparesAndSets : Entry → Bool
  | .served _ (.vaultWrite _ _ expected) note _ (some _) => versionOf note = expected
  | _ => true

/-- `isError` was answered only if nothing was written. -/
def errsUnwritten : Entry → Bool
  | .served _ _ _ (.ok (_, true)) wrote => wrote = none
  | _ => true

variable (fromStr : String → Except String Json)

/-- A successful `vault_read` showed the note's content and version. -/
def showsNote : Entry → Bool
  | .served _ (.vaultRead _) note (.ok (text, false)) _ =>
    match fromStr text with
    | .ok body => (body.getStr "content").getD "" = contentOf note ∧
        body.getStr "expectedVersion" = versionOf note
    | .error _ => true
  | _ => true

/-- A successful `vault_write` whose reply carries a version wrote the note with that version. -/
def namesWritten : Entry → Bool
  | .served _ (.vaultWrite _ _ _) _ (.ok (text, false)) wrote =>
    match fromStr text with
    | .ok body => body.getStr "version" = none ∨ body.getStr "version" = wrote
    | .error _ => true
  | _ => true

/-- The version token a note had, or was given, stands for its content. -/
def keepsTokens (token : String → Option String → String) : Entry → Bool
  | .served _ (.vaultRead path) note _ _ => contentOf note = token path (versionOf note)
  | .served _ (.vaultWrite path content _) note _ wrote =>
    contentOf note = token path (versionOf note) ∧
      (wrote = none ∨ content = token path wrote)
  | _ => true

end Entry

/-- The replies that reach the client are the server's. -/
def Genuine (J : List Entry) : Prop := Every (fun J₁ e => e.isGenuine J₁ = true) J

/-- `vault_write` is applied only when `expectedVersion` is current. -/
def CompareAndSet (J : List Entry) : Prop := ∀ e ∈ J, e.comparesAndSets = true

/-- `isError` is answered only when nothing was written. -/
def ErrsUnwritten (J : List Entry) : Prop := ∀ e ∈ J, e.errsUnwritten = true

/-- `vault_read` shows the note. -/
def ShowsNotes (fromStr : String → Except String Json) (J : List Entry) : Prop :=
  ∀ e ∈ J, e.showsNote fromStr = true

/-- A version in a success of `vault_write` is the one written. -/
def NamesWritten (fromStr : String → Except String Json) (J : List Entry) : Prop :=
  ∀ e ∈ J, e.namesWritten fromStr = true

/-- A version token stands for one content of its note, the one `token` names. -/
def KeepsTokens (token : String → Option String → String) (J : List Entry) : Prop :=
  ∀ e ∈ J, e.keepsTokens token = true

instance (J : List Entry) : Decidable (Genuine J) :=
  inferInstanceAs (Decidable (Every (fun J₁ e => e.isGenuine J₁ = true) J))

instance (J : List Entry) : Decidable (CompareAndSet J) :=
  inferInstanceAs (Decidable (∀ e ∈ J, e.comparesAndSets = true))

instance (J : List Entry) : Decidable (ErrsUnwritten J) :=
  inferInstanceAs (Decidable (∀ e ∈ J, e.errsUnwritten = true))

instance (fromStr : String → Except String Json) (J : List Entry) :
    Decidable (ShowsNotes fromStr J) :=
  inferInstanceAs (Decidable (∀ e ∈ J, e.showsNote fromStr = true))

instance (fromStr : String → Except String Json) (J : List Entry) :
    Decidable (NamesWritten fromStr J) :=
  inferInstanceAs (Decidable (∀ e ∈ J, e.namesWritten fromStr = true))

instance (token : String → Option String → String) (J : List Entry) :
    Decidable (KeepsTokens token J) :=
  inferInstanceAs (Decidable (∀ e ∈ J, e.keepsTokens token = true))

/-- What arrived was given. -/
theorem Genuine.served {J J₁ J₂ : List Entry} {n rid : Nat} {call : ToolCall} {r : String × Bool}
    {time : Instant} (h : Genuine J) (hs : J = J₁ ++ .answered n (some rid) call (.ok r) time :: J₂) :
    ∃ note wrote, .served rid call note (.ok r) wrote ∈ J₁ := by
  obtain ⟨e, he, hgave⟩ := List.any_eq_true.mp (h J₁ _ J₂ hs)
  cases e with
  | served rid' call' note reply wrote =>
    cases reply with
    | error m => cases hgave
    | ok r' =>
      obtain ⟨rfl, rfl, rfl⟩ := of_decide_eq_true hgave
      exact ⟨note, wrote, he⟩
  | _ => cases hgave

section

variable {fromStr : String → Except String Json} {J : List Entry} {rid : Nat}
  {path content text version : String} {expected wrote : Option String} {note : Option Note}
  {reply : ToolReply} {body : Json}

theorem CompareAndSet.current (h : CompareAndSet J)
    (hs : .served rid (.vaultWrite path content expected) note reply (some version) ∈ J) :
    versionOf note = expected :=
  of_decide_eq_true (h _ hs)

theorem ErrsUnwritten.wrote_eq {call : ToolCall} (h : ErrsUnwritten J)
    (hs : .served rid call note (.ok (text, true)) wrote ∈ J) : wrote = none :=
  of_decide_eq_true (p := wrote = none) (h _ hs)

theorem ShowsNotes.shown (h : ShowsNotes fromStr J)
    (hs : .served rid (.vaultRead path) note (.ok (text, false)) wrote ∈ J)
    (hbody : fromStr text = .ok body) :
    (body.getStr "content").getD "" = contentOf note ∧
      body.getStr "expectedVersion" = versionOf note := by
  have hshows := h _ hs
  simp only [Entry.showsNote, hbody] at hshows
  exact of_decide_eq_true hshows

theorem NamesWritten.wrote_eq (h : NamesWritten fromStr J)
    (hs : .served rid (.vaultWrite path content expected) note (.ok (text, false)) wrote ∈ J)
    (hbody : fromStr text = .ok body) (hv : body.getStr "version" = some version) :
    wrote = some version := by
  have hnames := h _ hs
  simp only [Entry.namesWritten, hbody, hv] at hnames
  rcases of_decide_eq_true hnames with hnone | hsome
  · cases hnone
  · exact hsome.symm

end

section

variable {token : String → Option String → String} {J : List Entry} {rid : Nat}
  {call : ToolCall} {note : Option Note} {reply : ToolReply} {wrote : Option String}

theorem KeepsTokens.note_eq (h : KeepsTokens token J)
    (hs : .served rid call note reply wrote ∈ J) :
    contentOf note = token call.path (versionOf note) := by
  cases call with
  | vaultRead path => exact of_decide_eq_true (h _ hs)
  | vaultWrite path content expected => exact (of_decide_eq_true (h _ hs)).1

theorem KeepsTokens.written_eq {path content version : String} {expected : Option String}
    (h : KeepsTokens token J)
    (hs : .served rid (.vaultWrite path content expected) note reply (some version) ∈ J) :
    content = token path (some version) := by
  rcases (of_decide_eq_true (h _ hs)).2 with hnone | hcontent
  · cases hnone
  · exact hcontent

end

/-! ## Writes in the vault -/

/-- The server applied a write of call `n`. -/
def Applied (n : Nat) (J : List Entry) : Prop :=
  ∃ rid call note reply version, (rid, call) ∈ writesOf n J ∧
    .served rid call note reply (some version) ∈ J

section

variable {fromStr : String → Except String Json} {J : List Entry} {n : Nat}

/-- A call without a write on the wire changed nothing. -/
theorem not_applied_of_nil (h : writesOf n J = []) : ¬ Applied n J := by
  rintro ⟨rid, call, note, reply, version, hmem, -⟩
  rw [h] at hmem
  cases hmem

/-- A write that was answered with `isError` changed nothing, and never will. -/
theorem Lawful.not_applied_of_refused {rid : Nat} {call : ToolCall} {text : String}
    {time : Instant} (h : Lawful fromStr J) (genuine : Genuine J) (errors : ErrsUnwritten J)
    (hw : writesOf n J = [(rid, call)])
    (hans : .answered n (some rid) call (.ok (text, true)) time ∈ J) : ¬ Applied n J := by
  rintro ⟨rid', call', note, reply, version, hmem, hserved⟩
  obtain ⟨l, l', rfl⟩ := List.append_of_mem hans
  obtain ⟨note', wrote, hgave⟩ := genuine.served rfl
  rw [hw] at hmem
  cases List.mem_singleton.mp hmem
  -- a request is served once, so this serving is the one that answered with an error
  cases h.served_unique hserved (List.mem_append_left _ hgave)
  cases errors.wrote_eq hserved

/-- What a served request carried was put on the wire by some call. -/
theorem Lawful.sent_of_served {rid : Nat} {call : ToolCall} {note : Option Note}
    {reply : ToolReply} {wrote : Option String} (h : Lawful fromStr J)
    (hserved : .served rid call note reply wrote ∈ J) :
    ∃ J₁ n conn J₂, J = J₁ ++ .sent n rid conn call :: J₂ := by
  obtain ⟨l, l', rfl⟩ := List.append_of_mem hserved
  obtain ⟨⟨n, conn, hsent⟩, -⟩ := h.rule rfl
  obtain ⟨J₁, J₂, rfl⟩ := List.append_of_mem hsent
  exact ⟨J₁, n, conn, J₂ ++ .served rid call note reply wrote :: l', by simp⟩

end

/-! ## A sample vault

One note and the texts a server sends about it, for runs on fixed inputs. -/

namespace Sample

def path : String := "note.md"

/-- The vault with the note at its first version. -/
def vault : String → Option Note := fun p => if p = path then some ⟨"first", "v1"⟩ else none

/-- The text of a successful `vault_read`. -/
def shown (content version : String) : String × Bool :=
  ("\x7b\"content\":\"" ++ content ++ "\",\"expectedVersion\":\"" ++ version ++ "\"\x7d", false)

/-- The text of a successful `vault_write`. -/
def accepted (version : String) : String × Bool :=
  ("\x7b\"ok\":true,\"version\":\"" ++ version ++ "\"\x7d", false)

/-- The refusal of a `vault_write` with an outdated version. -/
def refused : String × Bool := ("\x7b\"error\":\"CONFLICT\",\"ok\":false\x7d", true)

/-- The bodies of the sample texts. -/
def bodies : List (String × Json) :=
  [((shown "first" "v1").1,
      .object [("content", .string "first"), ("expectedVersion", .string "v1")]),
    ((shown "second" "v2").1,
      .object [("content", .string "second"), ("expectedVersion", .string "v2")]),
    ((accepted "v2").1, .object [("ok", .bool true), ("version", .string "v2")]),
    ((accepted "v3").1, .object [("ok", .bool true), ("version", .string "v3")]),
    (refused.1, .object [("error", .string "CONFLICT"), ("ok", .bool false)])]

/-- `serde_json::from_str` on the sample texts. -/
def fromStr (text : String) : Except String Json :=
  match bodies.lookup text with
  | some body => .ok body
  | none => .error "expected value at line 1 column 1"

/-- The journal of a run on the sample vault. -/
def journal (events : List Event) : List Entry :=
  (((Federation.machine fromStr).run (Federation.init vault) events).map (·.world.journal)).getD []

/-- A read of the note that fetches it over a new connection. -/
def firstRead : List Event :=
  [.call (.read path), .connected (.ok 0), .send, .serve 0 (.ok (shown "first" "v1")) none,
    .answer (.ok (shown "first" "v1"))]

/-- The human edits the note. -/
def humanEdit : Event := .edit path (some ⟨"second", "v2"⟩)

/-- The connection dies under a read, after the copy has aged. -/
def lostRead : List Event :=
  [.tick CACHE_TTL, .call (.read path), .answer (.error (.transport "stream ended"))]

/-- A request is served and its reply arrives. -/
def exchange (rid : Nat) (r : String × Bool) (wrote : Option String) : List Event :=
  [.send, .serve rid (.ok r) wrote, .answer (.ok r)]

end Sample

end GooseClaw
