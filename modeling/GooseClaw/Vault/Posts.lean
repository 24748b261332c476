import GooseClaw.Vault.Rig
import GooseClaw.Vault.Waiting

/-!
# What is on a connection

What the client wrote on a connection of the rig (`Post`), what may be read from it, and how each
operation of the connection keeps the two in step (`Link.Tracks`). Ids rise along a connection, so a wait
for an id is answered by the server's answer to the one request that carries it
(`Link.Tracks.settle_cases`), however many answers to earlier requests are still unread.
-/

namespace GooseClaw

open Found

/-! ## What is on a connection -/

/-- A line the client wrote; a tool call goes by its number in the federation. -/
inductive Post
  | discover (id : UInt64)
  | handshake (id : UInt64)
  | notice
  | tool (id : UInt64) (rid : Nat) (call : ToolCall)

namespace Post

def message : Post → Json
  | .discover id => requestMessage id "server/discover" McpConnection.probeParams
  | .handshake id => requestMessage id "initialize" McpConnection.initializeParams
  | .notice => notificationMessage "notifications/initialized" (.object [])
  | .tool id _ call => requestMessage id "tools/call" call.params

def id? : Post → Option UInt64
  | .discover id => some id
  | .handshake id => some id
  | .notice => none
  | .tool id _ _ => some id

/-- The line is the server's answer, and the journal has it. -/
def Answered (J : List Entry) (l : Json) : Post → Prop
  | .discover id => l = FakeVault.resultMessage (idNumber id) FakeVault.discoverResult
  | .handshake id => l = FakeVault.resultMessage (idNumber id) FakeVault.initializeResult
  | .notice => False
  | .tool id rid call => ∃ body note wrote, l = FakeVault.response id body ∧
      .served rid call note (.ok body) wrote ∈ J

/-- Posts that are written one after the other carry rising ids. -/
def Before (p q : Post) : Prop := ∀ i j, p.id? = some i → q.id? = some j → i < j

theorem Answered.mono {J J' : List Entry} {l : Json} {p : Post} (h : p.Answered J l)
    (hJ : ∀ e ∈ J, e ∈ J') : p.Answered J' l := by
  cases p with
  | tool id rid call =>
    obtain ⟨body, note, wrote, hl, hserved⟩ := h
    exact ⟨body, note, wrote, hl, hJ _ hserved⟩
  | _ => exact h

/-- An answer carries the id of its post. -/
theorem Answered.id_eq {J : List Entry} {l : Json} {p : Post} (h : p.Answered J l) :
    p.id? = messageId l := by
  cases p with
  | discover id => exact h ▸ (FakeVault.messageId_resultMessage id _).symm
  | handshake id => exact h ▸ (FakeVault.messageId_resultMessage id _).symm
  | notice => exact h.elim
  | tool id rid call =>
    obtain ⟨body, note, wrote, rfl, -⟩ := h
    exact (FakeVault.messageId_resultMessage id _).symm

theorem Answered.canonical {J : List Entry} {l : Json} {p : Post} (h : p.Answered J l) :
    l.Canonical := by
  cases p with
  | discover id =>
    exact h ▸ FakeVault.canonical_resultMessage id FakeVault.canonical_discoverResult
  | handshake id =>
    exact h ▸ FakeVault.canonical_resultMessage id FakeVault.canonical_initializeResult
  | notice => exact h.elim
  | tool id rid call =>
    obtain ⟨body, note, wrote, rfl, -⟩ := h
    exact FakeVault.canonical_response id body

end Post

/-- A connection of the rig: what was written on it, and what may be read from it. -/
structure Link.Tracks (J : List Entry) (inFlight : List (Nat × ToolCall)) (count : Nat) (link : Link)
    (posts : List Post) : Prop where
  sent : link.conn.sent = posts.map Post.message
  rising : posts.Pairwise Post.Before
  below : ∀ p ∈ posts, ∀ i, p.id? = some i → i ≤ link.conn.nextId
  counted : link.conn.nextId.toNat ≤ count
  untaken : ∀ id rid call, .tool id rid call ∈ posts.drop link.taken →
    inFlight.lookup rid = some call
  unread : ∀ l, .line l ∈ link.conn.unread → ∃ p ∈ posts, p.Answered J l

namespace Link

section

variable {serde : JsonSerde} {J : List Entry} {inFlight : List (Nat × ToolCall)} {count : Nat}
  {link : Link} {posts : List Post}

theorem Tracks.mono {J' : List Entry} {count' : Nat} (h : link.Tracks J inFlight count posts)
    (hJ : ∀ e ∈ J, e ∈ J') (hcount : count ≤ count') : link.Tracks J' inFlight count' posts where
  sent := h.sent
  rising := h.rising
  below := h.below
  counted := Nat.le_trans h.counted hcount
  untaken := h.untaken
  unread := by
    intro l hl
    obtain ⟨p, hp, hanswered⟩ := h.unread l hl
    exact ⟨p, hp, hanswered.mono hJ⟩

/-- A post is known by its id. -/
theorem Tracks.post_unique (h : link.Tracks J inFlight count posts) {p q : Post} {i : UInt64}
    (hp : p ∈ posts) (hq : q ∈ posts) (hpi : p.id? = some i) (hqi : q.id? = some i) : p = q := by
  have hlater : ∀ {p q : Post}, p.Before q → ¬ (p.id? = some i ∧ q.id? = some i) :=
    fun hbefore hids => UInt64.lt_irrefl i (hbefore i i hids.1 hids.2)
  have hsame : ∀ p ∈ posts, ∀ q ∈ posts, (p.id? = some i ∧ q.id? = some i → p = q) := by
    intro p hp q hq
    refine List.Pairwise.forall_of_forall_of_flip
      (R := fun p q => p.id? = some i ∧ q.id? = some i → p = q) (fun _ _ _ => rfl) ?_ ?_ hp hq
    · exact h.rising.imp fun hbefore hids => absurd hids (hlater hbefore)
    · exact h.rising.imp fun hbefore hids => absurd hids.symm (hlater hbefore)
  exact hsame p hp q hq ⟨hpi, hqi⟩

/-! ### Waiting -/

/-- A canonical line is a message. -/
theorem content_canonical (lawful : serde.Lawful) {l : Json} (h : l.Canonical) :
    McpConnection.content serde.fromStr serde.toString l = .message l := by
  have hne : (serde.toString l).toList.isEmpty = false := by
    rw [List.isEmpty_eq_false_iff]
    exact fun hnil => lawful.nonempty l h (String.toList_eq_nil_iff.mp hnil)
  simp only [McpConnection.content, lawful.trimmed l h, hne, Bool.false_eq_true, if_false,
    String.ofList_toList, lawful.readBack l h]

/-- What the client comes upon: its lines, and the deadline among them. -/
def stream (link : Link) : Option Nat → List (Reading Json)
  | some n => link.conn.unread.take n ++ .deadline :: link.conn.unread.drop n
  | none => link.conn.unread

theorem mem_stream {deadline : Option Nat} {l : Json} (h : .line l ∈ link.stream deadline) :
    .line l ∈ link.conn.unread := by
  cases deadline with
  | none => exact h
  | some n =>
    rcases List.mem_append.mp h with hread | hrest
    · exact List.mem_of_mem_take hread
    · rcases List.mem_cons.mp hrest with heq | hmem
      · cases heq
      · exact List.mem_of_mem_drop hmem

theorem settle_eq (serde : JsonSerde) (link : Link) (deadline : Option Nat) :
    link.settle serde deadline =
      ((McpConnection.awaitAnswer serde.fromStr serde.toString link.conn.nextId
          (link.stream deadline)).1,
        { link with conn := { link.conn with
            unread := (McpConnection.awaitAnswer serde.fromStr serde.toString link.conn.nextId
              (link.stream deadline)).2 } }) := by
  cases deadline <;> rfl

/-- A wait leaves a part of what it came upon. -/
theorem mem_rest {id : UInt64} {stream : List (Reading Json)} {r : Reading Json}
    (h : r ∈ (McpConnection.awaitAnswer serde.fromStr serde.toString id stream).2) : r ∈ stream := by
  rcases McpConnection.wait_cases serde.fromStr serde.toString id stream with
    ⟨l, msg, rest, hfirst⟩ | ⟨e, rest, hbroken⟩
  · rw [McpConnection.awaitAnswer_first hfirst] at h
    obtain ⟨front, rfl, -⟩ := hfirst
    exact List.mem_append_right _ (List.mem_cons_of_mem _ h)
  · rw [McpConnection.awaitAnswer_broken hbroken] at h
    obtain ⟨front, tail, rfl, -, hbreaks⟩ := hbroken
    apply List.mem_append_right
    cases hbreaks with
    | silent => exact h
    | eof => exact h
    | _ => exact List.mem_cons_of_mem _ h

/-- A wait keeps what is known of the connection. -/
theorem Tracks.settle (h : link.Tracks J inFlight count posts) (serde : JsonSerde)
    (deadline : Option Nat) :
    (link.settle serde deadline).2.Tracks J inFlight count posts := by
  rw [settle_eq]
  exact { h with unread := fun l hl => h.unread l (mem_stream (mem_rest hl)) }

/-- **A wait that is answered is answered by the server, to the request it waits for.** -/
theorem Tracks.settle_cases (lawful : serde.Lawful) (h : link.Tracks J inFlight count posts)
    (deadline : Option Nat) :
    (∃ e, (link.settle serde deadline).1 = .error e) ∨
      ∃ p ∈ posts, ∃ l, p.Answered J l ∧ p.id? = some link.conn.nextId ∧
        (link.settle serde deadline).1 = answer l := by
  rw [settle_eq]
  rcases McpConnection.wait_cases serde.fromStr serde.toString link.conn.nextId
    (link.stream deadline) with ⟨l, msg, rest, hfirst⟩ | ⟨e, rest, hbroken⟩
  · rw [McpConnection.awaitAnswer_first hfirst]
    obtain ⟨front, hstream, -, hmsg, hid⟩ := hfirst
    have hline : .line l ∈ link.stream deadline :=
      hstream ▸ List.mem_append_right _ List.mem_cons_self
    obtain ⟨p, hp, hanswered⟩ := h.unread l (mem_stream hline)
    rw [content_canonical lawful hanswered.canonical] at hmsg
    cases hmsg
    exact .inr ⟨p, hp, l, hanswered, hanswered.id_eq.trans hid, rfl⟩
  · rw [McpConnection.awaitAnswer_broken hbroken]
    exact .inl ⟨e, rfl⟩

/-! ### Writing -/

/-- The next id is new. -/
theorem nextId_lt (h : link.Tracks J inFlight count posts) (hcount : count + 1 < UInt64.size) :
    link.conn.nextId < link.conn.nextId + 1 ∧ (link.conn.nextId + 1).toNat ≤ count + 1 := by
  have hnext : (link.conn.nextId + 1).toNat = link.conn.nextId.toNat + 1 := by
    have hcounted := h.counted
    rw [UInt64.toNat_add]
    exact Nat.mod_eq_of_lt (by show link.conn.nextId.toNat + 1 < UInt64.size; omega)
  refine ⟨UInt64.lt_iff_toNat_lt.mpr ?_, ?_⟩
  · omega
  · have hcounted := h.counted
    omega

theorem mem_drop_snoc {α : Type} {l : List α} {n : Nat} {a b : α} (h : b ∈ (l ++ [a]).drop n) :
    b ∈ l.drop n ∨ b = a := by
  rw [List.drop_append] at h
  rcases List.mem_append.mp h with hold | hnew
  · exact .inl hold
  · exact .inr (List.mem_singleton.mp (List.mem_of_mem_drop hnew))

/-- One more line is written, behind the others. -/
theorem Tracks.posted (h : link.Tracks J inFlight count posts) {link' : Link} {p : Post}
    {inFlight' : List (Nat × ToolCall)} {count' : Nat}
    (hsent : link'.conn.sent = link.conn.sent ++ [p.message]) (htaken : link'.taken = link.taken)
    (hunread : link'.conn.unread = link.conn.unread)
    (hnext : link.conn.nextId ≤ link'.conn.nextId) (hcounted : link'.conn.nextId.toNat ≤ count')
    (hid : ∀ i, p.id? = some i → link.conn.nextId < i ∧ i ≤ link'.conn.nextId)
    (htool : ∀ id rid call, p = .tool id rid call → inFlight'.lookup rid = some call)
    (hflight : ∀ rid call, inFlight.lookup rid = some call → inFlight'.lookup rid = some call) :
    link'.Tracks J inFlight' count' (posts ++ [p]) where
  sent := by
    rw [hsent, h.sent, List.map_append]
    rfl
  rising := by
    refine List.pairwise_append.mpr ⟨h.rising, List.pairwise_singleton _ _, ?_⟩
    intro q hq p' hp' i j hi hj
    obtain rfl := List.mem_singleton.mp hp'
    exact UInt64.lt_of_le_of_lt (h.below q hq i hi) (hid j hj).1
  below := by
    intro q hq i hi
    rcases mem_snoc.mp hq with hold | rfl
    · exact UInt64.le_trans (h.below q hold i hi) hnext
    · exact (hid i hi).2
  counted := hcounted
  untaken := by
    intro id rid call hmem
    rw [htaken] at hmem
    rcases mem_drop_snoc hmem with hold | heq
    · exact hflight rid call (h.untaken id rid call hold)
    · exact htool id rid call heq.symm
  unread := by
    intro l hl
    rw [hunread] at hl
    obtain ⟨q, hq, hanswered⟩ := h.unread l hl
    exact ⟨q, List.mem_append_left _ hq, hanswered⟩

/-- A request that is written is the last post; one that is not takes an id all the same. -/
theorem Tracks.request (h : link.Tracks J inFlight count posts) (hcount : count + 1 < UInt64.size)
    {p : Post} {method : String} {params : Json}
    (hp : p.message = requestMessage (link.conn.nextId + 1) method params)
    (hid : p.id? = some (link.conn.nextId + 1)) {inFlight' : List (Nat × ToolCall)}
    (htool : ∀ id rid call, p = .tool id rid call → inFlight'.lookup rid = some call)
    (hflight : ∀ rid call, inFlight.lookup rid = some call → inFlight'.lookup rid = some call) :
    (∃ e link', link.request method params = (.error (.transport e), link') ∧
      link'.Tracks J inFlight (count + 1) posts) ∨
    ∃ link', link.request method params = (.ok (), link') ∧
      link'.conn.nextId = link.conn.nextId + 1 ∧
      link'.Tracks J inFlight' (count + 1) (posts ++ [p]) := by
  obtain ⟨hlt, hcounted⟩ := nextId_lt h hcount
  cases halive : link.alive with
  | false =>
    refine .inl ⟨"broken pipe", _, by simp only [Link.request, halive]; rfl, ?_⟩
    refine { h with below := ?_, counted := hcounted }
    intro q hq i hi
    exact UInt64.le_trans (h.below q hq i hi) (UInt64.le_of_lt hlt)
  | true =>
    refine .inr ⟨_, by simp only [Link.request, halive]; rfl, rfl, ?_⟩
    refine h.posted (congrArg (link.conn.sent ++ [·]) hp.symm) rfl rfl (UInt64.le_of_lt hlt) hcounted
      ?_ htool hflight
    intro i hi
    cases hid.symm.trans hi
    exact ⟨hlt, UInt64.le_refl _⟩

/-! ### The handshake -/

/-- The end of the handshake, with the notification or without it. -/
theorem Tracks.initialized (h : link.Tracks J inFlight count posts) (init : Json) :
    (link.initialized init).2.Tracks J inFlight count posts ∨
      (link.initialized init).2.Tracks J inFlight count (posts ++ [.notice]) := by
  unfold Link.initialized McpConnection.initialized
  cases init.getStr "protocolVersion" with
  | none => exact .inl { h with }
  | some negotiated =>
    dsimp only
    split
    · exact .inl { h with }
    · cases link.alive with
      | false => exact .inl { h with }
      | true =>
        exact .inr (h.posted rfl rfl rfl (UInt64.le_refl _) h.counted nofun nofun
          fun _ _ hlookup => hlookup)

/-! ### The server -/

/-- What the server makes of a line it takes up. -/
theorem Tracks.post_of_sent (h : link.Tracks J inFlight count posts) {msg : Json}
    (hmsg : link.conn.sent[link.taken]? = some msg) :
    ∃ p, posts[link.taken]? = some p ∧ p.message = msg ∧ p ∈ posts.drop link.taken := by
  rw [h.sent, List.getElem?_map] at hmsg
  obtain ⟨p, hp, rfl⟩ := Option.map_eq_some_iff.mp hmsg
  refine ⟨p, hp, rfl, ?_⟩
  rw [← List.head?_drop] at hp
  exact List.mem_of_mem_head? hp

/-- The server takes up a line, and what it answers is an answer. -/
theorem Tracks.took (h : link.Tracks J inFlight count posts) {response : Option Json} {p : Post}
    (hp : posts[link.taken]? = some p) {inFlight' : List (Nat × ToolCall)}
    (hflight : ∀ id rid call, .tool id rid call ∈ posts.drop (link.taken + 1) →
      inFlight'.lookup rid = some call)
    (hanswer : ∀ l, response = some l → p.Answered J l) :
    (link.took response).Tracks J inFlight' count posts where
  sent := h.sent
  rising := h.rising
  below := h.below
  counted := h.counted
  untaken := hflight
  unread := by
    intro l hl
    rcases List.mem_append.mp hl with hold | hnew
    · exact h.unread l hold
    · obtain ⟨l', hl', heq⟩ := List.mem_map.mp hnew
      cases heq
      exact ⟨p, List.mem_of_getElem? hp, hanswer l (Option.mem_toList.mp hl')⟩

theorem Tracks.kill (h : link.Tracks J inFlight count posts) :
    link.kill.Tracks J inFlight count posts := by
  unfold Link.kill
  split
  · refine { h with unread := ?_ }
    intro l hl
    rcases List.mem_append.mp hl with hold | hnew
    · exact h.unread l hold
    · cases List.mem_singleton.mp hnew
  · exact h

/-- A connection whose probe was written. -/
theorem tracks_dialled (J : List Entry) (inFlight : List (Nat × ToolCall)) (hcount : 0 < count) :
    Link.dialled.Tracks J inFlight count [.discover 1] where
  sent := rfl
  rising := List.pairwise_singleton _ _
  below := by
    intro p hp i hi
    obtain rfl := List.mem_singleton.mp hp
    cases hi
    exact UInt64.le_refl _
  counted := hcount
  untaken := by
    intro id rid call hmem
    cases List.mem_singleton.mp hmem
  unread l hl := absurd hl List.not_mem_nil

end

end Link

end GooseClaw
