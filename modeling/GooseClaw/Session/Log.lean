import GooseClaw.Session.Store

/-!
# Session logs

What a session's file holds and what `load` reads from it. `written` is what an append puts behind its
file, and nothing else moves (`content_append`). A file made of whole lines is read line by line in
front of whatever follows (`loadLoop_complete`), because a text without a newline of its own is
framed by the one behind it.

`load_run` is the result for appends that succeed.
-/

namespace GooseClaw

open Found

/-! ## Assumptions -/

/-- What the store relies on in `serde_json`: `from_str` inverts `to_string`, whose compact output is
not blank and holds no raw line ending. -/
structure Serde.Lawful (serde : Serde) : Prop where
  inverts : ∀ {event text}, serde.toString event = .ok text → serde.fromStr text = .ok event
  notBlank : ∀ {event text}, serde.toString event = .ok text → isBlank text.toList = false
  noNewline : ∀ {event text}, serde.toString event = .ok text → '\n' ∉ text.toList
  noReturn : ∀ {event text}, serde.toString event = .ok text → '\r' ∉ text.toList

/-- The name of a file in a directory. -/
def IsFileName (name : String) : Prop :=
  '/' ∉ name.toList ∧ name ≠ "" ∧ name ≠ "." ∧ name ≠ ".."

/-- Distinct file names are distinct files. -/
def DistinctFiles {F : Type*} (resolve : String → F) (root : String) : Prop :=
  ∀ m n, IsFileName m → IsFileName n → m ≠ n → resolve (joinPath root m) ≠ resolve (joinPath root n)

/-- A path shows the name that was joined to it. -/
theorem joinPath_inj {root m n : String} (hm : IsFileName m) (hn : IsFileName n) :
    joinPath root m = joinPath root n ↔ m = n := by
  have hrel : ∀ {name : String}, IsFileName name → name.toList.head? ≠ some '/' :=
    fun hname hhead => hname.1 (List.mem_of_mem_head? hhead)
  unfold joinPath
  rw [if_neg (hrel hm), if_neg (hrel hn)]
  split
  · rw [String.append_right_inj]
  · rw [String.append_right_inj]

namespace JsonlSessionStore

theorem isFileName_fileName {sessionId : String} (h : '/' ∉ sessionId.toList) :
    IsFileName (fileName sessionId) := by
  have hlen : 6 ≤ (fileName sessionId).toList.length := by
    rw [fileName, String.toList_append, List.length_append]
    exact Nat.le_add_left _ _
  refine ⟨?_, ?_, ?_, ?_⟩
  · rw [fileName, String.toList_append, List.mem_append]
    rintro (hmem | hmem)
    · exact h hmem
    · revert hmem
      decide
  all_goals
    intro heq
    rw [heq] at hlen
    exact absurd hlen (by decide)

theorem fileName_inj {s t : String} : fileName s = fileName t ↔ s = t := by
  unfold fileName
  rw [← String.toList_inj, String.toList_append, String.toList_append, List.append_left_inj,
    String.toList_inj]

/-! ## What an append writes -/

variable {serde : Serde} {F : Type*} {resolve : String → F} {store : JsonlSessionStore}

variable (serde) in
/-- The bytes an append puts behind its file. -/
def written (c : Append) : List UInt8 :=
  match c.fate, serde.toString c.event with
  | .refused _, _ => []
  | _, .error _ => []
  | .cut n _, .ok text => (utf8 (text.push '\n')).take n
  | .completes, .ok text => utf8 (text.push '\n')

variable (serde resolve store) in
theorem content_append [DecidableEq F] (disk : Disk F) (c : Append) (file : F) :
    (store.append serde resolve disk c.session c.event c.fate).2.content file =
      if file = resolve (store.pathFor c.session) then disk.content file ++ written serde c
      else disk.content file := by
  obtain ⟨session, event, fate⟩ := c
  by_cases hfile : file = resolve (store.pathFor session)
  · rw [if_pos hfile]
    subst hfile
    unfold append written
    cases fate <;> cases serde.toString event <;>
      simp only [Disk.content_extend_self, List.append_nil]
  · rw [if_neg hfile]
    unfold append
    cases fate <;> cases serde.toString event <;>
      simp only [Disk.content_extend_of_ne _ hfile]

/-- An append that returned `Ok` has written its whole line. -/
theorem written_of_isOk [DecidableEq F] {disk : Disk F} {c : Append}
    (h : (store.append serde resolve disk c.session c.event c.fate).1.isOk = true) :
    ∃ text, serde.toString c.event = .ok text ∧ written serde c = utf8 text ++ [newline] := by
  obtain ⟨session, event, fate⟩ := c
  cases htext : serde.toString event with
  | error e => cases fate <;> simp only [append, htext] at h <;> cases h
  | ok text =>
    cases fate with
    | refused e => cases h
    | cut n report =>
      simp only [append, htext] at h
      cases report <;> cases h
    | completes =>
      refine ⟨text, rfl, ?_⟩
      simp only [written, htext, utf8_push_newline]

/-! ## Reading -/

/-- `load` reads the lines of what the file holds. -/
theorem load_eq (disk : Disk F) (sessionId : String) :
    store.load serde resolve disk sessionId =
      loadLoop serde [] (lines isNewline (disk.content (resolve (store.pathFor sessionId)))) := by
  unfold load Disk.content
  cases disk (resolve (store.pathFor sessionId)) with
  | none => rfl
  | some bytes => rfl

theorem chomp_of_free {line : List Char} (h : '\n' ∉ line) : chomp line = line := by
  unfold chomp
  rw [if_neg]
  intro hlast
  exact h (List.mem_of_getLast? hlast)

theorem chomp_snoc {line : List Char} (h : '\r' ∉ line) : chomp (line ++ ['\n']) = line := by
  unfold chomp
  rw [List.getLast?_concat, if_pos rfl, List.dropLast_concat]
  dsimp only
  rw [if_neg]
  intro hlast
  exact h (List.mem_of_getLast? hlast)

/-- A text without line endings is read back from its line. -/
theorem readLine_line {text : String} (h : '\r' ∉ text.toList) :
    readLine (utf8 text ++ [newline]) = .ok text := by
  unfold readLine
  rw [← utf8_push_newline, decodeUtf8_utf8]
  dsimp only
  rw [String.toList_push, chomp_snoc h, String.ofList_toList]

/-- A text without a newline is read back from the last line. -/
theorem readLine_text {text : String} (h : '\n' ∉ text.toList) : readLine (utf8 text) = .ok text := by
  unfold readLine
  rw [decodeUtf8_utf8]
  dsimp only
  rw [chomp_of_free h, String.ofList_toList]

/-- A line that reads as an event's text adds the event. -/
theorem loadLoop_cons (hlaw : serde.Lawful) {event : SessionEvent} {text : String}
    {raw : List UInt8} (htext : serde.toString event = .ok text) (hraw : readLine raw = .ok text)
    (out : List SessionEvent) (rest : List (List UInt8)) :
    loadLoop serde out (raw :: rest) = loadLoop serde (out ++ [event]) rest := by
  simp only [loadLoop, hraw, hlaw.notBlank htext, hlaw.inverts htext, Bool.false_eq_true, if_false]

/-! ## Whole lines -/

/-- The bytes are the lines of the events, in order. -/
inductive Complete (serde : Serde) : List SessionEvent → List UInt8 → Prop
  | nil : Complete serde [] []
  | snoc {events front event text} : Complete serde events front →
    serde.toString event = .ok text →
    Complete serde (events ++ [event]) (front ++ (utf8 text ++ [newline]))

/-- Whole lines are read as their events, whatever follows them. -/
theorem loadLoop_complete (hlaw : serde.Lawful) {events : List SessionEvent} {front : List UInt8}
    (h : Complete serde events front) (out : List SessionEvent) (rest : List UInt8) :
    loadLoop serde out (lines isNewline (front ++ rest)) =
      loadLoop serde (out ++ events) (lines isNewline rest) := by
  induction h generalizing rest with
  | nil => rw [List.append_nil, List.nil_append]
  | @snoc events front event text _ htext ih =>
    have hfree := isNewline_of_noNewline (hlaw.noNewline htext)
    have hlines : lines isNewline (utf8 text ++ newline :: rest) =
        (utf8 text ++ [newline]) :: lines isNewline rest :=
      lines_append_cons hfree rfl rest
    rw [List.append_assoc, List.append_assoc, List.singleton_append, ih, hlines,
      loadLoop_cons hlaw htext (readLine_line (hlaw.noReturn htext)), List.append_assoc]

theorem Complete.endsIn {events : List SessionEvent} {front : List UInt8}
    (h : Complete serde events front) : EndsIn isNewline front := by
  cases h with
  | nil => exact endsIn_nil
  | snoc _ _ =>
    rw [← List.append_assoc]
    exact endsIn_snoc rfl

/-- A file that is not there has no lines. -/
theorem complete_of_none {disk : Disk F} {f : F} (h : disk f = none) :
    Complete serde [] (disk.content f) := by
  unfold Disk.content
  rw [h]
  exact .nil

/-- A file of whole lines loads as their events. -/
theorem Complete.load (hlaw : serde.Lawful) {events : List SessionEvent} {disk : Disk F}
    {sessionId : String}
    (h : Complete serde events (disk.content (resolve (store.pathFor sessionId)))) :
    store.load serde resolve disk sessionId = .ok events := by
  have hread := loadLoop_complete hlaw h [] []
  rw [List.append_nil, List.nil_append] at hread
  rw [load_eq, hread]
  rfl

/-! ## Runs -/

/-- Sessions without a separator in their ids have files of their own. -/
theorem resolve_pathFor_ne (hfiles : DistinctFiles resolve store.root) {s t : String}
    (hs : '/' ∉ s.toList) (ht : '/' ∉ t.toList) (hne : s ≠ t) :
    resolve (store.pathFor s) ≠ resolve (store.pathFor t) :=
  hfiles _ _ (isFileName_fileName hs) (isFileName_fileName ht) (fileName_inj.not.mpr hne)

/-- The events appended to a session, in order. -/
def appended (sessionId : String) (calls : List Append) : List SessionEvent :=
  calls.filterMap fun c => if c.session = sessionId then some c.event else none

variable [DecidableEq F]

/-- An append that succeeds adds a whole line to its own session's file. -/
theorem complete_handle (hfiles : DistinctFiles resolve store.root) {s : String} {disk : Disk F}
    {c : Append} {old : List SessionEvent} {calls : List Append} (hs : '/' ∉ s.toList)
    (hc : '/' ∉ c.session.toList)
    (hok : (store.append serde resolve disk c.session c.event c.fate).1.isOk = true)
    (h : Complete serde (old ++ appended s calls) (disk.content (resolve (store.pathFor s)))) :
    Complete serde (old ++ appended s (calls ++ [c]))
      ((store.append serde resolve disk c.session c.event c.fate).2.content
        (resolve (store.pathFor s))) := by
  have hgrown : appended s (calls ++ [c]) =
      appended s calls ++ (if c.session = s then some c.event else none).toList :=
    filterMap_snoc _ calls c
  rw [hgrown, content_append, ← List.append_assoc]
  by_cases heq : c.session = s
  · obtain ⟨text, htext, hwritten⟩ := written_of_isOk hok
    rw [if_pos heq, if_pos (by rw [heq]), hwritten]
    exact h.snoc htext
  · rw [if_neg heq, if_neg (resolve_pathFor_ne hfiles hs hc (Ne.symm heq)), Option.toList_none,
      List.append_nil]
    exact h

/-- After successful appends a session's file holds its old lines, and behind them the lines of what was
appended to it. -/
theorem complete_after (hfiles : DistinctFiles resolve store.root) {start : Disk F}
    {old : List SessionEvent} {calls : List Append} {s : String} (hs : '/' ∉ s.toList)
    (hstart : Complete serde old (start.content (resolve (store.pathFor s))))
    (hcalls : ∀ x ∈ (store.service serde resolve).exchanges start calls,
      '/' ∉ x.1.session.toList ∧ x.2.isOk = true) :
    Complete serde (old ++ appended s calls)
      (((store.service serde resolve).after start calls).content (resolve (store.pathFor s))) := by
  rw [← congrArg (appended s) (Service.exchanges_calls (store.service serde resolve) start calls)]
  revert hcalls
  refine (store.service serde resolve).history (P := fun log disk =>
    (∀ x ∈ log, '/' ∉ x.1.session.toList ∧ x.2.isOk = true) →
      Complete serde (old ++ appended s (log.map Prod.fst))
        (disk.content (resolve (store.pathFor s)))) ?_ ?_ calls
  · intro _
    rw [List.map_nil, appended, List.filterMap_nil, List.append_nil]
    exact hstart
  · intro log disk c ih hlog
    obtain ⟨hc, hreply⟩ := hlog _ (List.mem_append_right log (List.mem_singleton_self _))
    rw [List.map_append]
    exact complete_handle hfiles hs hc hreply
      (ih fun x hx => hlog x (List.mem_append_left _ hx))

/-- **Round trip and isolation.** After any interleaving of successful appends, to sessions whose ids
hold no separator, a session loads as the events appended to it, in their order; and an append, whatever
becomes of it, changes what no other session loads as. -/
theorem load_run (hlaw : serde.Lawful) (hfiles : DistinctFiles resolve store.root) :
    (∀ (start : Disk F) (calls : List Append) (s : String), '/' ∉ s.toList →
      (∀ c ∈ calls, '/' ∉ c.session.toList) → start (resolve (store.pathFor s)) = none →
      (∀ x ∈ (store.service serde resolve).exchanges start calls, x.2.isOk = true) →
        store.load serde resolve ((store.service serde resolve).after start calls) s =
          .ok (appended s calls)) ∧
    ∀ (disk : Disk F) (c : Append) (s : String), '/' ∉ s.toList → '/' ∉ c.session.toList →
      s ≠ c.session →
        store.load serde resolve ((store.service serde resolve).handle disk c).2 s =
          store.load serde resolve disk s := by
  constructor
  · intro start calls s hs hcalls hstart hok
    refine (complete_after hfiles hs (complete_of_none hstart) ?_).load hlaw
    intro x hx
    refine ⟨hcalls x.1 ?_, hok x hx⟩
    rw [← Service.exchanges_calls (store.service serde resolve) start calls]
    exact List.mem_map_of_mem hx
  · intro disk c s hs hc hne
    rw [load_eq, load_eq]
    have hcontent := content_append serde resolve store disk c
      (resolve (store.pathFor s))
    rw [if_neg (resolve_pathFor_ne hfiles hs hc hne)] at hcontent
    exact congrArg (fun bytes => loadLoop serde [] (lines isNewline bytes)) hcontent

/-! ## A sample -/

def sampleCreated : SessionEvent := ⟨1, .sessionCreated, "created"⟩

def samplePrompt : SessionEvent := ⟨2, .promptSent, "a\nb\r\"é\""⟩

def sampleCreatedText : String := "\x7b\"at_unix\":1,\"kind\":\"SessionCreated\",\"detail\":\"created\"\x7d"

def samplePromptText : String :=
  "\x7b\"at_unix\":2,\"kind\":\"PromptSent\",\"detail\":\"a\\nb\\r\\\"é\\\"\"\x7d"

/-- `serde_json`, as far as the two sample events go. -/
def sampleSerde : Serde where
  toString event :=
    if event = sampleCreated then .ok sampleCreatedText
    else if event = samplePrompt then .ok samplePromptText
    else .error "not a sample"
  fromStr text :=
    if text = sampleCreatedText then .ok sampleCreated
    else if text = samplePromptText then .ok samplePrompt
    else .error "not a sample"

theorem sampleSerde_toString {event : SessionEvent} {text : String}
    (h : sampleSerde.toString event = .ok text) :
    (event = sampleCreated ∧ text = sampleCreatedText) ∨
      (event = samplePrompt ∧ text = samplePromptText) := by
  unfold sampleSerde at h
  dsimp only at h
  split at h
  · cases h
    exact .inl ⟨‹_›, rfl⟩
  · split at h
    · cases h
      exact .inr ⟨‹_›, rfl⟩
    · cases h

theorem sampleSerde_lawful : sampleSerde.Lawful where
  inverts h := by
    rcases sampleSerde_toString h with ⟨rfl, rfl⟩ | ⟨rfl, rfl⟩ <;> decide
  notBlank h := by
    rcases sampleSerde_toString h with ⟨-, rfl⟩ | ⟨-, rfl⟩ <;> decide
  noNewline h := by
    rcases sampleSerde_toString h with ⟨-, rfl⟩ | ⟨-, rfl⟩ <;> decide
  noReturn h := by
    rcases sampleSerde_toString h with ⟨-, rfl⟩ | ⟨-, rfl⟩ <;> decide

/-- Paths that are files themselves. -/
theorem distinctFiles_id (root : String) : DistinctFiles id root :=
  fun _ _ hm hn hne heq => hne ((joinPath_inj hm hn).mp heq)

/-- Three appends to two sessions, on an empty disk. -/
def sampleAppends : List Append :=
  [⟨"a1", sampleCreated, .completes⟩, ⟨"b2", sampleCreated, .completes⟩,
    ⟨"a1", samplePrompt, .completes⟩]

theorem load_run_sample :
    (⟨"sessions"⟩ : JsonlSessionStore).load sampleSerde id
        (((⟨"sessions"⟩ : JsonlSessionStore).service sampleSerde id).after (fun _ => none)
          sampleAppends) "a1" =
      .ok [sampleCreated, samplePrompt] ∧
    (⟨"sessions"⟩ : JsonlSessionStore).load sampleSerde id
        (((⟨"sessions"⟩ : JsonlSessionStore).service sampleSerde id).handle (fun _ => none)
          ⟨"b2", samplePrompt, .cut 5 none⟩).2 "a1" =
      (⟨"sessions"⟩ : JsonlSessionStore).load sampleSerde id (fun _ => none) "a1" :=
  ⟨(load_run sampleSerde_lawful (distinctFiles_id "sessions")).1 (fun _ => none) sampleAppends "a1"
      (by decide) (by decide) rfl (by decide),
    (load_run sampleSerde_lawful (distinctFiles_id "sessions")).2 (fun _ => none)
      ⟨"b2", samplePrompt, .cut 5 none⟩ "a1" (by decide) (by decide) (by decide)⟩

end JsonlSessionStore

end GooseClaw
