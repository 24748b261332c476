import GooseClaw.Vault.Federation

/-!
# Reading the journal

What an observer of the wire and of the caller can say from the journal, without looking into the
client. A reply may confirm a note to the client or, as a conflict, take its copy away; the standing
confirmation of a path is the latest one no conflict took away (`Standing`). `cacheOf` computes the
standing confirmations, and `cacheOf_eq_some` says that it does.

The caller is given contents by read results, by conflicts and by its own accepted writes
(`lastGiven`); a call puts requests on the wire (`writesOf`).
-/

namespace GooseClaw

open Found

namespace Entry

variable (fromStr : String → Except String Json)

/-- The path an entry confirms, with what it confirms: a successful `vault_read` the note it carries, a
success of `vault_write` that carries a version the content written. -/
def confirms : Entry → Option (String × CacheEntry)
  | .answered _ _ (.vaultRead path) (.ok (text, false)) time =>
    match fromStr text with
    | .ok body =>
      some (path, ⟨(body.getStr "content").getD "", body.getStr "expectedVersion", time⟩)
    | .error _ => none
  | .answered _ _ (.vaultWrite path content _) (.ok (text, false)) time =>
    match fromStr text with
    | .ok body => (body.getStr "version").map fun v => (path, ⟨content, some v, time⟩)
    | .error _ => none
  | _ => none

/-- The path whose copy an entry takes away: a refusal of `vault_write` that reports a conflict. -/
def discards : Entry → Option String
  | .answered _ _ (.vaultWrite path _ _) (.ok (text, true)) _ =>
    match fromStr text with
    | .ok body => if VaultClient.isConflict text body then some path else none
    | .error _ => none
  | _ => none

/-- What an entry does to the standing confirmations. -/
def learn (cache : Cache) (e : Entry) : Cache :=
  match e.confirms fromStr with
  | some (path, k) => cache.insert path k
  | none =>
    match e.discards fromStr with
    | some path => cache.remove path
    | none => cache

/-- The entry neither confirms the path nor takes its copy away. -/
def Spares (path : String) (e : Entry) : Prop :=
  (∀ k, e.confirms fromStr ≠ some (path, k)) ∧ e.discards fromStr ≠ some path

/-- The content an entry gives the caller, for a path. -/
def given (path : String) : Entry → Option String
  | .returned _ (.read p) (.read (.ok r)) _ _ => if p = path then some r.content else none
  | .returned _ (.write p content) (.write (.ok (.written _))) _ _ =>
    if p = path then some content else none
  | .returned _ (.write p _) (.write (.ok (.conflict fresh))) _ _ =>
    if p = path then some fresh.content else none
  | _ => none

/-- The `vault_write` a call puts on the wire. -/
def writeOf (n : Nat) : Entry → Option (Nat × ToolCall)
  | .sent m rid _ call => if m = n ∧ call.isWrite = true then some (rid, call) else none
  | _ => none

/-- The call an entry belongs to. -/
def callNo? : Entry → Option Nat
  | .called n _ _ => some n
  | .connected n _ => some n
  | .sent n _ _ _ => some n
  | .answered n _ _ _ _ => some n
  | .returned n _ _ _ _ => some n
  | .served _ _ _ _ _ => none
  | .edited _ _ => none

/-- Call `n` is failed: no connection came up, or a tool call ended in an error of the connection. -/
def Fails (n : Nat) : Entry → Prop
  | .connected m (.error _) => m = n
  | .answered m _ _ (.error _) _ => m = n
  | _ => False

variable {fromStr}

/-- A `vault_read` confirms the note its body carries. -/
theorem of_confirms_read {n : Nat} {rid : Option Nat} {path path' : String} {reply : ToolReply}
    {time : Instant} {k : CacheEntry}
    (h : (answered n rid (.vaultRead path) reply time).confirms fromStr = some (path', k)) :
    path' = path ∧ ∃ text body, reply = .ok (text, false) ∧ fromStr text = .ok body ∧
      k = ⟨(body.getStr "content").getD "", body.getStr "expectedVersion", time⟩ := by
  rcases reply with m | ⟨text, _ | _⟩
  · cases h
  · cases hbody : fromStr text with
    | error e => simp only [confirms, hbody, reduceCtorEq] at h
    | ok body =>
      simp only [confirms, hbody, Option.some.injEq, Prod.mk.injEq] at h
      exact ⟨h.1.symm, text, body, rfl, hbody, h.2.symm⟩
  · cases h

/-- A `vault_write` confirms the content written, with the version its body carries. -/
theorem of_confirms_write {n : Nat} {rid : Option Nat} {path path' content : String}
    {expected : Option String} {reply : ToolReply} {time : Instant} {k : CacheEntry}
    (h : (answered n rid (.vaultWrite path content expected) reply time).confirms fromStr =
      some (path', k)) :
    path' = path ∧ ∃ text body version, reply = .ok (text, false) ∧ fromStr text = .ok body ∧
      body.getStr "version" = some version ∧ k = ⟨content, some version, time⟩ := by
  rcases reply with m | ⟨text, _ | _⟩
  · cases h
  · cases hbody : fromStr text with
    | error e => simp only [confirms, hbody, reduceCtorEq] at h
    | ok body =>
      cases hversion : body.getStr "version" with
      | none => simp only [confirms, hbody, hversion, Option.map_none, reduceCtorEq] at h
      | some version =>
        simp only [confirms, hbody, hversion, Option.map_some, Option.some.injEq,
          Prod.mk.injEq] at h
        exact ⟨h.1.symm, text, body, version, rfl, hbody, hversion, h.2.symm⟩
  · cases h

/-- A reply does not confirm a note and take one away at once. -/
theorem discards_of_confirms {e : Entry} {pk : String × CacheEntry}
    (h : e.confirms fromStr = some pk) : e.discards fromStr = none := by
  unfold confirms at h
  split at h
  · rfl
  · rfl
  · cases h

theorem learn_of_confirms {path : String} {k : CacheEntry} {e : Entry}
    (h : e.confirms fromStr = some (path, k)) (cache : Cache) :
    e.learn fromStr cache = cache.insert path k := by
  simp only [learn, h]

theorem learn_of_discards {path : String} {e : Entry} (hc : e.confirms fromStr = none)
    (hd : e.discards fromStr = some path) (cache : Cache) :
    e.learn fromStr cache = cache.remove path := by
  simp only [learn, hc, hd]

theorem learn_of_neither {e : Entry} (hc : e.confirms fromStr = none)
    (hd : e.discards fromStr = none) (cache : Cache) : e.learn fromStr cache = cache := by
  simp only [learn, hc, hd]

/-- What an entry leaves standing for one path: what it confirms, nothing, or what stood before. -/
theorem learn_at (e : Entry) (path : String) (cache : Cache) :
    (∃ k, e.confirms fromStr = some (path, k) ∧ e.learn fromStr cache path = some k) ∨
    (e.confirms fromStr = none ∧ e.discards fromStr = some path ∧
      e.learn fromStr cache path = none) ∨
    (e.Spares fromStr path ∧ e.learn fromStr cache path = cache path) := by
  cases hc : e.confirms fromStr with
  | some pk =>
    obtain ⟨p, k⟩ := pk
    rw [learn_of_confirms hc]
    by_cases hp : path = p
    · subst hp
      exact .inl ⟨k, rfl, Cache.insert_same _ _ _⟩
    · refine .inr (.inr ⟨⟨?_, ?_⟩, Cache.insert_other _ _ hp⟩)
      · intro k' h
        rw [hc, Option.some.injEq, Prod.mk.injEq] at h
        exact hp h.1.symm
      · rw [discards_of_confirms hc]
        nofun
  | none =>
    cases hd : e.discards fromStr with
    | none =>
      rw [learn_of_neither hc hd]
      refine .inr (.inr ⟨⟨?_, ?_⟩, rfl⟩)
      · intro k h
        rw [hc] at h
        cases h
      · intro h
        rw [hd] at h
        cases h
    | some p =>
      rw [learn_of_discards hc hd]
      by_cases hp : path = p
      · subst hp
        exact .inr (.inl ⟨rfl, rfl, Cache.remove_same _ _⟩)
      · refine .inr (.inr ⟨⟨?_, ?_⟩, Cache.remove_other _ hp⟩)
        · intro k h
          rw [hc] at h
          cases h
        · intro h
          rw [hd, Option.some.injEq] at h
          exact hp h.symm

end Entry

section Standing

variable (fromStr : String → Except String Json)

/-- The standing confirmations of a journal. -/
def cacheOf (journal : List Entry) : Cache := journal.foldl (fun c e => e.learn fromStr c) .empty

@[simp] theorem cacheOf_nil : cacheOf fromStr [] = .empty := rfl

@[simp] theorem cacheOf_snoc (journal : List Entry) (e : Entry) :
    cacheOf fromStr (journal ++ [e]) = e.learn fromStr (cacheOf fromStr journal) := by
  simp only [cacheOf, List.foldl_append, List.foldl_cons, List.foldl_nil]

/-- The confirmation `k` of the path is the latest one, and no conflict took it away. -/
def Standing (journal : List Entry) (path : String) (k : CacheEntry) : Prop :=
  ∃ before e later, journal = before ++ e :: later ∧ e.confirms fromStr = some (path, k) ∧
    ∀ e' ∈ later, e'.Spares fromStr path

variable {fromStr}

theorem Standing.snoc {journal : List Entry} {path : String} {k : CacheEntry} {e : Entry}
    (h : Standing fromStr journal path k) (spares : e.Spares fromStr path) :
    Standing fromStr (journal ++ [e]) path k := by
  obtain ⟨before, e₀, later, rfl, hc, hl⟩ := h
  refine ⟨before, e₀, later ++ [e], by simp, hc, ?_⟩
  intro e' he'
  rcases List.mem_append.mp he' with hold | hnew
  · exact hl e' hold
  · exact List.mem_singleton.mp hnew ▸ spares

/-- A standing confirmation of a longer journal is the new entry, or stood before and was spared. -/
theorem standing_snoc_cases {journal : List Entry} {path : String} {k : CacheEntry} {e : Entry}
    (h : Standing fromStr (journal ++ [e]) path k) :
    e.confirms fromStr = some (path, k) ∨
      Standing fromStr journal path k ∧ e.Spares fromStr path := by
  obtain ⟨before, e₀, later, hsplit, hc, hl⟩ := h
  rcases snoc_eq_append_cons hsplit with ⟨later', rfl, hj⟩ | ⟨-, -, rfl⟩
  · refine .inr ⟨⟨before, e₀, later', hj, hc, fun e' he' => hl e' ?_⟩, hl e ?_⟩
    · exact List.mem_append_left _ he'
    · exact List.mem_append_right _ (List.mem_singleton_self e)
  · exact .inl hc

/-- **The computed cache holds exactly the standing confirmations.** -/
theorem cacheOf_eq_some {journal : List Entry} {path : String} {k : CacheEntry} :
    cacheOf fromStr journal path = some k ↔ Standing fromStr journal path k := by
  induction journal using List.reverseRecOn with
  | nil =>
    refine ⟨nofun, ?_⟩
    rintro ⟨before, e, later, h, -⟩
    exact absurd h.symm (List.append_ne_nil_of_right_ne_nil before (List.cons_ne_nil e later))
  | append_singleton journal e ih =>
    rw [cacheOf_snoc]
    rcases e.learn_at path (cacheOf fromStr journal) with
      ⟨k', hc, hl⟩ | ⟨hc, hd, hl⟩ | ⟨spares, hl⟩
    · rw [hl, Option.some.injEq]
      constructor
      · rintro rfl
        exact ⟨journal, e, [], rfl, hc, List.forall_mem_nil _⟩
      · intro h
        rcases standing_snoc_cases h with hc' | ⟨-, spares⟩
        · rw [hc, Option.some.injEq, Prod.mk.injEq] at hc'
          exact hc'.2
        · exact absurd hc (spares.1 k')
    · rw [hl]
      refine ⟨nofun, ?_⟩
      intro h
      rcases standing_snoc_cases h with hc' | ⟨-, spares⟩
      · rw [hc] at hc'
        cases hc'
      · exact absurd hd spares.2
    · rw [hl, ih]
      refine ⟨fun h => h.snoc spares, ?_⟩
      intro h
      rcases standing_snoc_cases h with hc | ⟨hj, -⟩
      · exact absurd hc (spares.1 k)
      · exact hj

end Standing

/-! ## Calls in the journal -/

/-- The `vault_write`s call `n` put on the wire, in order. -/
def writesOf (n : Nat) (journal : List Entry) : List (Nat × ToolCall) :=
  journal.filterMap (Entry.writeOf n)

@[simp] theorem writesOf_snoc (n : Nat) (journal : List Entry) (e : Entry) :
    writesOf n (journal ++ [e]) = writesOf n journal ++ (e.writeOf n).toList :=
  filterMap_snoc _ _ _

/-- A call that has not begun has put nothing on the wire. -/
theorem writesOf_eq_nil {n : Nat} {journal : List Entry}
    (h : ∀ e ∈ journal, e.callNo? ≠ some n) : writesOf n journal = [] := by
  apply List.filterMap_eq_nil_iff.mpr
  intro e he
  cases e with
  | sent m rid conn call =>
    have hne : m ≠ n := fun hm => h _ he (congrArg some hm)
    simp only [Entry.writeOf, hne, false_and, if_false]
  | _ => rfl

theorem mem_writesOf {n rid : Nat} {call : ToolCall} {journal : List Entry} :
    (rid, call) ∈ writesOf n journal ↔
      call.isWrite = true ∧ ∃ conn, Entry.sent n rid conn call ∈ journal := by
  unfold writesOf
  rw [List.mem_filterMap]
  constructor
  · rintro ⟨e, he, hw⟩
    cases e with
    | sent m rid' conn call' =>
      simp only [Entry.writeOf, Option.ite_none_right_eq_some, Option.some.injEq,
        Prod.mk.injEq] at hw
      obtain ⟨⟨rfl, hwrite⟩, rfl, rfl⟩ := hw
      exact ⟨hwrite, conn, he⟩
    | _ => cases hw
  · rintro ⟨hwrite, conn, he⟩
    exact ⟨_, he, by simp only [Entry.writeOf, hwrite, and_self, if_true]⟩

/-- The awaited call is the revalidation of a write: a fetch by a write call that has put no
`vault_write` on the wire yet. -/
def Revalidates (n : Nat) (journal : List Entry) (call : ToolCall) : Prop :=
  call.isWrite = false ∧ (∃ path content before,
    Entry.called n (.write path content) before ∈ journal) ∧ writesOf n journal = []

/-- The entry begins call `n` as a write. -/
def Entry.beginsWrite (n : Nat) : Entry → Bool
  | .called m (.write _ _) _ => m = n
  | _ => false

theorem any_beginsWrite {n : Nat} {journal : List Entry} :
    journal.any (Entry.beginsWrite n) = true ↔
      ∃ path content before, Entry.called n (.write path content) before ∈ journal := by
  rw [List.any_eq_true]
  constructor
  · rintro ⟨e, he, hb⟩
    cases e with
    | called m op before =>
      cases op with
      | read path => cases hb
      | write path content =>
        obtain rfl : m = n := of_decide_eq_true hb
        exact ⟨path, content, before, he⟩
    | _ => cases hb
  · rintro ⟨path, content, before, he⟩
    exact ⟨_, he, decide_eq_true rfl⟩

instance (n : Nat) (journal : List Entry) (call : ToolCall) :
    Decidable (Revalidates n journal call) :=
  decidable_of_iff (call.isWrite = false ∧ journal.any (Entry.beginsWrite n) = true ∧
    writesOf n journal = []) (by rw [any_beginsWrite, Revalidates])

/-- The content the caller was last given for a path. -/
def lastGiven (path : String) (journal : List Entry) : Option String :=
  (journal.filterMap (Entry.given path)).getLast?

theorem lastGiven_snoc (path : String) (journal : List Entry) (e : Entry) :
    lastGiven path (journal ++ [e]) = (e.given path).or (lastGiven path journal) := by
  unfold lastGiven
  rw [filterMap_snoc, List.getLast?_append]
  cases e.given path <;> rfl

end GooseClaw
