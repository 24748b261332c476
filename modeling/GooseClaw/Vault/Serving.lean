import GooseClaw.Vault.Posts

/-!
# A connection that is served

When a wait is answered. The server's task runs, nothing but lines stands in the stream (`Clean`), and
the post that carries the last id is answered there, or will be when the server comes to it
(`Awaits`). Once the server has taken up everything that was written, the wait ends with what it makes of that
post, whatever stands in front of it from requests that were given up (`Awaits.settle`).

The answer comes from a vault that keeps the notes there were: no call and no edit removes one (`Holds`).
-/

namespace GooseClaw

open Found

/-! ## Posts and their answers -/

theorem messageId_requestMessage (id : UInt64) (method : String) (params : Json) :
    messageId (requestMessage id method params) = some id :=
  FakeVault.messageId_resultMessage id .null

namespace Post

theorem messageId_message (p : Post) : messageId p.message = p.id? := by
  cases p with
  | discover id => exact messageId_requestMessage id _ _
  | handshake id => exact messageId_requestMessage id _ _
  | notice => rfl
  | tool id rid call => exact messageId_requestMessage id _ _

variable (toString : Json → String)

/-- What the server answers carries the id of the post. -/
theorem messageId_handle (v : FakeVault) (p : Post) {l : Json}
    (h : (v.handle toString p.message).1 = some l) : messageId l = p.id? := by
  cases p with
  | discover id => exact Option.some.inj h ▸ FakeVault.messageId_resultMessage id _
  | handshake id => exact Option.some.inj h ▸ FakeVault.messageId_resultMessage id _
  | notice => cases h
  | tool id rid call =>
    rw [message, FakeVault.handle_request] at h
    exact Option.some.inj h ▸ FakeVault.messageId_resultMessage id _

/-- A post with an id is answered. -/
theorem handle_message (v : FakeVault) {p : Post} {id : UInt64} (hid : p.id? = some id) :
    ∃ l, (v.handle toString p.message).1 = some l ∧ messageId l = some id := by
  suffices hsome : ∃ l, (v.handle toString p.message).1 = some l by
    obtain ⟨l, hl⟩ := hsome
    exact ⟨l, hl, (p.messageId_handle toString v hl).trans hid⟩
  cases p with
  | discover id => exact ⟨_, rfl⟩
  | handshake id => exact ⟨_, rfl⟩
  | notice => cases hid
  | tool id rid call => exact ⟨_, congrArg Prod.fst (v.handle_request id call)⟩

end Post

/-! ## Notes stay -/

/-- The vault has a note at each of the paths. -/
def FakeVault.Holds (paths : String → Prop) (v : FakeVault) : Prop :=
  ∀ p, paths p → (v.notes p).isSome = true

namespace FakeVault

variable {paths : String → Prop} {v : FakeVault}

/-- Setting a note removes none. -/
theorem Holds.set (h : v.Holds paths) {v' : FakeVault} {path : String} {entry : String × UInt64}
    (heq : v'.notes = fun q => if q = path then some entry else v.notes q) : v'.Holds paths := by
  intro p hp
  rw [heq]
  dsimp only
  split
  · rfl
  · exact h p hp

theorem Holds.humanEdit (h : v.Holds paths) (path content : String) :
    (v.humanEdit path content).Holds paths := h.set rfl

theorem Holds.after (h : v.Holds paths) (toString : Json → String) (call : ToolCall) :
    (v.after toString call).Holds paths := by
  unfold FakeVault.after
  split
  · exact h.set rfl
  · exact h

/-- The server removes no note. -/
theorem Holds.handle (h : v.Holds paths) (toString : Json → String) (p : Post) :
    (v.handle toString p.message).2.Holds paths := by
  cases p with
  | tool id rid call =>
    rw [Post.message, handle_request]
    exact h.after toString call
  | _ => exact h

end FakeVault

namespace Link

/-! ## Clean connections -/

/-- The server's task runs, and it has sent nothing but lines. -/
structure Clean (link : Link) : Prop where
  alive : link.alive = true
  lines : ∀ r ∈ link.conn.unread, ∃ l, r = .line l
  taken_le : link.taken ≤ link.conn.sent.length

theorem clean_dialled : Link.dialled.Clean := ⟨rfl, List.forall_mem_nil _, Nat.zero_le _⟩

section

variable {link : Link}

/-- A wait without a deadline leaves it clean. -/
theorem Clean.settle (h : link.Clean) (serde : JsonSerde) : (link.settle serde none).2.Clean := by
  rw [settle_eq]
  exact ⟨h.alive, fun r hr => h.lines r (mem_rest hr), h.taken_le⟩

theorem Clean.took (h : link.Clean) {msg : Json} (hmsg : link.conn.sent[link.taken]? = some msg)
    (response : Option Json) : (link.took response).Clean where
  alive := h.alive
  lines := by
    intro r hr
    rcases List.mem_append.mp hr with hold | hnew
    · exact h.lines r hold
    · obtain ⟨l, -, rfl⟩ := List.mem_map.mp hnew
      exact ⟨l, rfl⟩
  taken_le := (List.getElem?_eq_some_iff.mp hmsg).1

/-- On a clean connection the handshake ends well. -/
theorem Clean.initialized (h : link.Clean) :
    ∃ link', link.initialized FakeVault.initializeResult = (.ok (), link') ∧ link'.Clean := by
  have hversion : FakeVault.initializeResult.getStr "protocolVersion" = some LEGACY_VERSION := rfl
  refine ⟨{ link with conn := { link.conn with
      negotiatedVersion := LEGACY_VERSION
      writes := []
      sent := link.conn.sent ++ [Post.notice.message] } }, ?_, h.alive, h.lines, ?_⟩
  · simp only [Link.initialized, McpConnection.initialized, hversion, h.alive, ne_eq,
      not_true_eq_false, if_true, if_false]
    rfl
  · exact Nat.le_trans h.taken_le (List.length_append ▸ Nat.le_add_right _ _)

end

/-! ## The post that is waited for -/

/-- The post carries the last id, and it is answered from a vault of the kind, or stands behind the lines
the server has taken up. -/
structure Awaits (serde : JsonSerde) (kind : FakeVault → Prop) (link : Link) (p : Post) : Prop where
  id : p.id? = some link.conn.nextId
  pending : p.message ∈ link.conn.sent.drop link.taken ∨
    ∃ l, .line l ∈ link.conn.unread ∧ messageId l = some link.conn.nextId
  only : ∀ m ∈ link.conn.sent.drop link.taken, messageId m = some link.conn.nextId → m = p.message
  lines : ∀ l, .line l ∈ link.conn.unread → messageId l = some link.conn.nextId →
    ∃ v, kind v ∧ (v.handle serde.toString p.message).1 = some l

theorem awaits_dialled (serde : JsonSerde) (kind : FakeVault → Prop) :
    Link.dialled.Awaits serde kind (.discover 1) where
  id := rfl
  pending := .inl List.mem_cons_self
  only := fun _ hm _ => List.mem_singleton.mp hm
  lines := fun _ hl _ => absurd hl List.not_mem_nil

section

variable {serde : JsonSerde} {kind : FakeVault → Prop} {link : Link} {p : Post} {J : List Entry}
  {inFlight : List (Nat × ToolCall)} {count : Nat} {posts : List Post}

/-- The server takes up a line. -/
theorem Awaits.took (h : link.Awaits serde kind p) (htracks : link.Tracks J inFlight count posts)
    {v : FakeVault} (hv : kind v) {msg : Json} (hmsg : link.conn.sent[link.taken]? = some msg) :
    (link.took (v.handle serde.toString msg).1).Awaits serde kind p := by
  obtain ⟨q, -, rfl, -⟩ := htracks.post_of_sent hmsg
  have hdrop : link.conn.sent.drop link.taken =
      q.message :: link.conn.sent.drop (link.taken + 1) := by
    obtain ⟨hlt, hget⟩ := List.getElem?_eq_some_iff.mp hmsg
    rw [List.drop_eq_getElem_cons hlt, hget]
  have hnew : ∀ l, (v.handle serde.toString q.message).1 = some l →
      .line l ∈ (link.took (v.handle serde.toString q.message).1).conn.unread := by
    intro l hl
    refine List.mem_append_right _ (List.mem_map.mpr ⟨l, ?_, rfl⟩)
    rw [hl]
    exact List.mem_cons_self
  have honly := h.only
  have hpending := h.pending
  rw [hdrop] at honly hpending
  refine ⟨h.id, ?_, fun m hm => honly m (List.mem_cons_of_mem _ hm), ?_⟩
  · rcases hpending with hmem | ⟨l, hl, hid⟩
    · rcases List.mem_cons.mp hmem with heq | hlater
      · -- it is the post waited for that is taken up
        obtain ⟨l, hl, hid⟩ := Post.handle_message serde.toString v h.id
        exact .inr ⟨l, hnew l (heq ▸ hl), hid⟩
      · exact .inl hlater
    · exact .inr ⟨l, List.mem_append_left _ hl, hid⟩
  · intro l hl hid
    rcases List.mem_append.mp hl with hold | hline
    · exact h.lines l hold hid
    · obtain ⟨l', hl', heq⟩ := List.mem_map.mp hline
      cases heq
      have hl' := Option.mem_toList.mp hl'
      have hmine : q.message = p.message := by
        refine honly _ List.mem_cons_self ?_
        rw [Post.messageId_message, ← Post.messageId_handle serde.toString v q hl']
        exact hid
      exact ⟨v, hv, hmine ▸ hl'⟩

/-- A request on a clean connection is written, and is waited for. -/
theorem Clean.request (h : link.Clean) (htracks : link.Tracks J inFlight count posts)
    (hcount : count + 1 < UInt64.size) {method : String} {params : Json}
    (hp : p.message = requestMessage (link.conn.nextId + 1) method params)
    (hid : p.id? = some (link.conn.nextId + 1)) :
    ∃ link', link.request method params = (.ok (), link') ∧ link'.Clean ∧
      link'.Awaits serde kind p := by
  have hlt := (nextId_lt htracks hcount).1
  have hlow : ∀ q ∈ posts, q.id? ≠ some (link.conn.nextId + 1) := by
    intro q hq heq
    exact UInt64.lt_irrefl _ (UInt64.lt_of_lt_of_le hlt (htracks.below q hq _ heq))
  refine ⟨{ link with conn := { link.conn with
      nextId := link.conn.nextId + 1
      writes := []
      sent := link.conn.sent ++ [p.message] } }, ?_, ⟨h.alive, h.lines, ?_⟩, hid, .inl ?_, ?_, ?_⟩
  · simp only [Link.request, h.alive, if_true, hp]
    rfl
  · exact Nat.le_trans h.taken_le (List.length_append ▸ Nat.le_add_right _ _)
  · rw [List.drop_append_of_le_length h.taken_le]
    exact List.mem_concat_self
  · intro m hm hmid
    rcases mem_drop_snoc hm with hold | hnew
    · have hmem := List.mem_of_mem_drop hold
      rw [htracks.sent] at hmem
      obtain ⟨q, hq, rfl⟩ := List.mem_map.mp hmem
      exact absurd (q.messageId_message.symm.trans hmid) (hlow q hq)
    · exact hnew
  · intro l hl hlid
    obtain ⟨q, hq, hanswered⟩ := htracks.unread l hl
    exact absurd (hanswered.id_eq.trans hlid) (hlow q hq)

/-- **The wait for a post that is taken up ends with its answer.** -/
theorem Awaits.settle (lawful : serde.Lawful) (h : link.Awaits serde kind p) (hclean : link.Clean)
    (htracks : link.Tracks J inFlight count posts) (hall : link.taken = link.conn.sent.length) :
    ∃ v l, kind v ∧ (v.handle serde.toString p.message).1 = some l ∧
      (link.settle serde none).1 = answer l := by
  have hmessage : ∀ l, .line l ∈ link.conn.unread →
      McpConnection.content serde.fromStr serde.toString l = .message l := by
    intro l hl
    obtain ⟨q, -, hanswered⟩ := htracks.unread l hl
    exact content_canonical lawful hanswered.canonical
  rw [settle_eq]
  rcases McpConnection.wait_cases serde.fromStr serde.toString link.conn.nextId
    (link.stream none) with ⟨l, msg, rest, hfirst⟩ | ⟨e, rest, hbroken⟩
  · rw [McpConnection.awaitAnswer_first hfirst]
    obtain ⟨front, hstream, -, hmsg, hid⟩ := hfirst
    have hmem : .line l ∈ link.stream none := hstream ▸ List.mem_append_right _ List.mem_cons_self
    have hline := mem_stream hmem
    cases (hmessage l hline).symm.trans hmsg
    obtain ⟨v, hv, hl⟩ := h.lines l hline hid
    exact ⟨v, l, hv, hl, rfl⟩
  · -- in a stream of messages only the end breaks off a wait, and the answer is before it
    obtain ⟨l, hl, hid⟩ : ∃ l, .line l ∈ link.conn.unread ∧
        messageId l = some link.conn.nextId := by
      rcases h.pending with hmem | hline
      · rw [hall, List.drop_length] at hmem
        cases hmem
      · exact hline
    obtain ⟨front, tail, hstream, hfront, hbreaks⟩ := hbroken
    change link.conn.unread = front ++ tail at hstream
    have htail : ∀ r ∈ tail, r ∈ link.conn.unread :=
      fun r hr => hstream ▸ List.mem_append_right front hr
    have hline : ∀ r rest, tail = r :: rest → ∃ l, r = .line l ∧ .line l ∈ link.conn.unread := by
      rintro r rest rfl
      have hr := htail r List.mem_cons_self
      obtain ⟨l, rfl⟩ := hclean.lines r hr
      exact ⟨l, rfl, hr⟩
    cases hbreaks with
    | silent =>
      rw [List.append_nil] at hstream
      have hover := hfront (.line l) (hstream ▸ hl)
      exact absurd hid (hover.messageId_ne (hmessage l hl))
    | deadline =>
      obtain ⟨l, heq, -⟩ := hline _ _ rfl
      cases heq
    | failed =>
      obtain ⟨l, heq, -⟩ := hline _ _ rfl
      cases heq
    | eof =>
      obtain ⟨l, heq, -⟩ := hline _ _ rfl
      cases heq
    | unparsable hcontent =>
      obtain ⟨l, heq, hmem⟩ := hline _ _ rfl
      cases heq
      cases (hmessage _ hmem).symm.trans hcontent

end

end Link

end GooseClaw
