import GooseClaw.Found.Lowercase
import GooseClaw.Text
import GooseClaw.Vault.Wire

/-!
# JSON text

`serde_json` is outside the repository. What the vault's two ends rely on is that a value written by
`to_string` is read back by `from_str` (`JsonSerde.Lawful`). The values are those `Value` can hold: the keys
of an object are in the order of its map, without repetition, and a number is an integer
(`Json.Canonical`); the vault sends no other.

The rest of the module is one pair that keeps the law: the compact text of a value and a reader of
compact text. Runs on fixed inputs use it.
-/

namespace GooseClaw

/-- The two directions of `serde_json`. -/
structure JsonSerde where
  toString : Json → String
  fromStr : String → Except String Json

namespace Json

/-- The text of an integer in the range of `u64` or of `i64`. -/
def IsInteger (text : String) : Prop :=
  (∃ n, n < UInt64.size ∧ text = n.repr) ∨
    ∃ n, 0 < n ∧ n ≤ UInt64.size / 2 ∧ text = "-" ++ n.repr

mutual

/-- What `Value` can hold, less the floats. -/
def Canonical : Json → Prop
  | .number text => IsInteger text
  | .array items => CanonicalItems items
  | .object fields => (fields.map Prod.fst).Pairwise (· < ·) ∧ CanonicalFields fields
  | _ => True

def CanonicalItems : List Json → Prop
  | [] => True
  | v :: vs => v.Canonical ∧ CanonicalItems vs

def CanonicalFields : List (String × Json) → Prop
  | [] => True
  | (_, v) :: fields => v.Canonical ∧ CanonicalFields fields

end

end Json

/-- What was written is read back, and a compact text has no blank around it. -/
structure JsonSerde.Lawful (serde : JsonSerde) : Prop where
  readBack : ∀ v, v.Canonical → serde.fromStr (serde.toString v) = .ok v
  trimmed : ∀ v, v.Canonical → trim (serde.toString v).toList = (serde.toString v).toList
  nonempty : ∀ v, v.Canonical → serde.toString v ≠ ""

namespace Json

/-! ## Writing -/

def hexDigit (n : Nat) : Char := Char.ofNat (if n < 10 then 48 + n else 87 + n)

/-- A character of a string literal. -/
def escape (c : Char) : List Char :=
  if c = '"' then ['\\', '"']
  else if c = '\\' then ['\\', '\\']
  else if c = '\n' then ['\\', 'n']
  else if c = '\r' then ['\\', 'r']
  else if c = '\t' then ['\\', 't']
  else if c.toNat = 8 then ['\\', 'b']
  else if c.toNat = 12 then ['\\', 'f']
  else if c.toNat < 32 then ['\\', 'u', '0', '0', hexDigit (c.toNat / 16), hexDigit (c.toNat % 16)]
  else [c]

/-- What follows the opening quote of a string literal. -/
def quoted (s : List Char) : List Char := s.flatMap escape ++ ['"']

mutual

/-- The compact text of a value. -/
def render : Json → List Char
  | .null => "null".toList
  | .bool true => "true".toList
  | .bool false => "false".toList
  | .number text => text.toList
  | .string s => '"' :: quoted s.toList
  | .array [] => ['[', ']']
  | .array (v :: vs) => '[' :: (v.render ++ renderItems vs)
  | .object [] => ['\x7b', '\x7d']
  | .object ((k, v) :: fields) =>
    '\x7b' :: '"' :: (quoted k.toList ++ ':' :: (v.render ++ renderFields fields))

/-- The further items of an array, to its closing bracket. -/
def renderItems : List Json → List Char
  | [] => [']']
  | v :: vs => ',' :: (v.render ++ renderItems vs)

/-- The further fields of an object, to its closing brace. -/
def renderFields : List (String × Json) → List Char
  | [] => ['\x7d']
  | (k, v) :: fields => ',' :: '"' :: (quoted k.toList ++ ':' :: (v.render ++ renderFields fields))

end

/-! ## Reading -/

/-- The characters of literals and numbers. -/
def isWordChar (c : Char) : Bool := c.isAlphanum || c == '-' || c == '+' || c == '.'

def hexValue (c : Char) : Option Nat :=
  if '0' ≤ c ∧ c ≤ '9' then some (c.toNat - 48)
  else if 'a' ≤ c ∧ c ≤ 'f' then some (c.toNat - 87)
  else none

def unescape : Char → Option Char
  | '"' => some '"'
  | '\\' => some '\\'
  | '/' => some '/'
  | 'n' => some '\n'
  | 'r' => some '\r'
  | 't' => some '\t'
  | 'b' => some (Char.ofNat 8)
  | 'f' => some (Char.ofNat 12)
  | _ => none

/-- A string literal behind its opening quote. Of the escapes by number, those a writer uses. -/
def unquote : List Char → Option (List Char × List Char)
  | [] => none
  | '"' :: rest => some ([], rest)
  | '\\' :: 'u' :: '0' :: '0' :: a :: b :: rest => do
    let c := Char.ofNat (16 * (← hexValue a) + (← hexValue b))
    (unquote rest).map fun (s, rest) => (c :: s, rest)
  | '\\' :: e :: rest => do
    let c ← unescape e
    (unquote rest).map fun (s, rest) => (c :: s, rest)
  | c :: rest => if c.toNat < 32 then none else (unquote rest).map fun (s, rest) => (c :: s, rest)

/-- A literal or a number. -/
def parseWord (cs : List Char) : Option (Json × List Char) :=
  let word := cs.takeWhile isWordChar
  let rest := cs.dropWhile isWordChar
  if word = "null".toList then some (.null, rest)
  else if word = "true".toList then some (.bool true, rest)
  else if word = "false".toList then some (.bool false, rest)
  else if word = [] then none
  else some (.number (String.ofList word), rest)

mutual

/-- A value at the front of a text. -/
def parseValue : Nat → List Char → Option (Json × List Char)
  | 0, _ => none
  | _ + 1, '"' :: rest => (unquote rest).map fun (s, rest) => (.string (String.ofList s), rest)
  | _ + 1, '[' :: ']' :: rest => some (.array [], rest)
  | n + 1, '[' :: rest => do
    let (v, rest) ← parseValue n rest
    (parseItems n rest).map fun (vs, rest) => (.array (v :: vs), rest)
  | _ + 1, '\x7b' :: '\x7d' :: rest => some (.object [], rest)
  | n + 1, '\x7b' :: rest => do
    let (field, rest) ← parseField n rest
    (parseFields n rest).map fun (fields, rest) => (.object (field :: fields), rest)
  | _ + 1, cs => parseWord cs

/-- The further items of an array. -/
def parseItems : Nat → List Char → Option (List Json × List Char)
  | _, ']' :: rest => some ([], rest)
  | n + 1, ',' :: rest => do
    let (v, rest) ← parseValue n rest
    (parseItems n rest).map fun (vs, rest) => (v :: vs, rest)
  | _, _ => none

/-- A field of an object. -/
def parseField : Nat → List Char → Option ((String × Json) × List Char)
  | n + 1, '"' :: rest => do
    let (k, rest) ← unquote rest
    match rest with
    | ':' :: rest => (parseValue n rest).map fun (v, rest) => ((String.ofList k, v), rest)
    | _ => none
  | _, _ => none

/-- The further fields of an object. -/
def parseFields : Nat → List Char → Option (List (String × Json) × List Char)
  | _, '\x7d' :: rest => some ([], rest)
  | n + 1, ',' :: rest => do
    let (field, rest) ← parseField n rest
    (parseFields n rest).map fun (fields, rest) => (field :: fields, rest)
  | _, _ => none

end

/-! ## What was written is read back -/

theorem hexValue_hexDigit : ∀ n < 16, hexValue (hexDigit n) = some n := by decide

/-- A character that needs an escape of its own. -/
theorem unquote_short {c e : Char} (he : unescape e = some c) (hu : e ≠ 'u') (rest : List Char) :
    unquote ('\\' :: e :: rest) = (unquote rest).map fun (s, rest) => (c :: s, rest) := by
  rw [unquote]
  · simp only [he, Option.bind_eq_bind, Option.bind_some]
  · rintro a b rest' rfl
    exact absurd rfl hu

/-- A literal's next character. -/
theorem unquote_escape (c : Char) (rest : List Char) :
    unquote (escape c ++ rest) = (unquote rest).map fun (s, rest) => (c :: s, rest) := by
  unfold escape
  split
  · next h =>
    subst h
    exact unquote_short rfl (by decide) rest
  split
  · next h =>
    subst h
    exact unquote_short rfl (by decide) rest
  split
  · next h =>
    subst h
    exact unquote_short rfl (by decide) rest
  split
  · next h =>
    subst h
    exact unquote_short rfl (by decide) rest
  split
  · next h =>
    subst h
    exact unquote_short rfl (by decide) rest
  split
  · next h =>
    obtain rfl : c = Char.ofNat 8 := Char.toNat_inj.mp h
    exact unquote_short rfl (by decide) rest
  split
  · next h =>
    obtain rfl : c = Char.ofNat 12 := Char.toNat_inj.mp h
    exact unquote_short rfl (by decide) rest
  split
  · next h =>
    have hchar : Char.ofNat (16 * (c.toNat / 16) + c.toNat % 16) = c := by
      rw [Nat.div_add_mod, Char.ofNat_toNat]
    show unquote ('\\' :: 'u' :: '0' :: '0' :: _ :: _ :: rest) = _
    rw [unquote, hexValue_hexDigit _ (by omega), hexValue_hexDigit _ (by omega)]
    simp only [Option.bind_eq_bind, Option.bind_some, hchar]
  · next hq hb _ _ _ _ _ h =>
    show unquote (c :: rest) = _
    rw [unquote, if_neg h]
    all_goals grind

/-- A string literal is read back. -/
@[simp] theorem unquote_quoted (s rest : List Char) :
    unquote (quoted s ++ rest) = some (s, rest) := by
  induction s with
  | nil => rfl
  | cons c s ih =>
    have hquoted : quoted (c :: s) ++ rest = escape c ++ (quoted s ++ rest) := by
      simp only [quoted, List.flatMap_cons, List.append_assoc]
    rw [hquoted, unquote_escape, ih]
    rfl

/-! ### Words -/

theorem isWordChar_of_isDigit {c : Char} (h : c.isDigit = true) : isWordChar c = true := by
  simp only [isWordChar, Char.isAlphanum, h, Bool.or_true, Bool.true_or]

/-- A word holds no blank. -/
theorem isWhitespace_of_isWordChar {c : Char} (h : isWordChar c = true) :
    isWhitespace c = false := by
  have hrange : 43 ≤ c.toNat ∧ c.toNat ≤ 122 := by
    simp only [isWordChar, Char.isAlphanum, Char.isDigit, Bool.or_eq_true, Bool.and_eq_true,
      decide_eq_true_eq, beq_iff_eq, ge_iff_le, UInt32.le_iff_toNat_le] at h
    rcases h with (((h | h) | rfl) | rfl) | rfl
    · have hletter := Found.toNat_of_isAlpha h
      omega
    · exact ⟨Nat.le_trans (by decide) h.1, Nat.le_trans h.2 (by decide)⟩
    all_goals decide
  simp only [isWhitespace]
  grind

/-- A number is a word, and none of the literals. -/
theorem IsInteger.word {text : String} (h : IsInteger text) :
    (∃ c cs, text.toList = c :: cs ∧ (c.isDigit = true ∨ c = '-')) ∧
      ∀ c ∈ text.toList, isWordChar c = true := by
  have hdigit : ∀ n : Nat, ∀ c ∈ n.repr.toList, c.isDigit = true := by
    intro n c hc
    rw [Nat.toList_repr] at hc
    exact Nat.isDigit_of_mem_toDigits (by decide) (by decide) hc
  rcases h with ⟨n, -, rfl⟩ | ⟨n, -, -, rfl⟩
  · refine ⟨?_, fun c hc => isWordChar_of_isDigit (hdigit n c hc)⟩
    obtain ⟨c, cs, heq⟩ : ∃ c cs, n.repr.toList = c :: cs :=
      List.exists_cons_of_ne_nil (by rw [Nat.toList_repr]; exact Nat.toDigits_ne_nil)
    exact ⟨c, cs, heq, .inl (hdigit n c (heq ▸ List.mem_cons_self))⟩
  · rw [String.toList_append]
    refine ⟨⟨'-', n.repr.toList, rfl, .inr rfl⟩, ?_⟩
    intro c hc
    rcases List.mem_append.mp hc with hsign | hrest
    · obtain rfl := List.mem_singleton.mp hsign
      rfl
    · exact isWordChar_of_isDigit (hdigit n c hrest)

/-- No word goes on here. -/
def WordEnds (rest : List Char) : Prop := ∀ c cs, rest = c :: cs → isWordChar c = false

theorem wordEnds_cons {c : Char} (h : isWordChar c = false) (cs : List Char) :
    WordEnds (c :: cs) := by
  intro c' cs' heq
  cases heq
  exact h

theorem parseWord_append {w rest : List Char} (hword : ∀ c ∈ w, isWordChar c = true)
    (hrest : WordEnds rest) :
    parseWord (w ++ rest) =
      if w = "null".toList then some (.null, rest)
      else if w = "true".toList then some (.bool true, rest)
      else if w = "false".toList then some (.bool false, rest)
      else if w = [] then none
      else some (.number (String.ofList w), rest) := by
  have hends : rest.takeWhile isWordChar = [] ∧ rest.dropWhile isWordChar = rest := by
    cases rest with
    | nil => exact ⟨rfl, rfl⟩
    | cons c cs => simp [hrest c cs rfl]
  unfold parseWord
  rw [List.takeWhile_append_of_pos hword, List.dropWhile_append_of_pos hword, hends.1, hends.2,
    List.append_nil]

/-- What begins with a character of a word is a word. -/
theorem parseValue_word (n : Nat) {c : Char} (h : isWordChar c = true) (cs : List Char) :
    parseValue (n + 1) (c :: cs) = parseWord (c :: cs) := by
  rw [parseValue]
  all_goals
    rintro rest ⟨⟩
    cases h

/-! ### Values -/

/-- How a value's text begins. -/
theorem render_cons (v : Json) (h : v.Canonical) :
    ∃ c cs, v.render = c :: cs ∧ c ≠ ']' ∧ isWhitespace c = false := by
  cases v with
  | null => exact ⟨_, _, rfl, by decide, by decide⟩
  | bool b => cases b <;> exact ⟨_, _, rfl, by decide, by decide⟩
  | string s => exact ⟨_, _, rfl, by decide, by decide⟩
  | array items => cases items <;> exact ⟨_, _, rfl, by decide, by decide⟩
  | object fields => cases fields <;> exact ⟨_, _, rfl, by decide, by decide⟩
  | number text =>
    obtain ⟨⟨c, cs, hcons, hc⟩, hword⟩ := IsInteger.word h
    refine ⟨c, cs, hcons, ?_, ?_⟩
    · rintro rfl
      rcases hc with hdigit | hsign
      · cases hdigit
      · cases hsign
    · exact isWhitespace_of_isWordChar (hword c (hcons ▸ List.mem_cons_self))

theorem wordEnds_renderItems (vs : List Json) (rest : List Char) :
    WordEnds (renderItems vs ++ rest) := by
  cases vs <;> exact wordEnds_cons (by decide) _

theorem wordEnds_renderFields (fields : List (String × Json)) (rest : List Char) :
    WordEnds (renderFields fields ++ rest) := by
  cases fields <;> exact wordEnds_cons (by decide) _

theorem parseValue_number {n : Nat} {text : String} {rest : List Char} (h : IsInteger text)
    (hrest : WordEnds rest) :
    parseValue (n + 1) (text.toList ++ rest) = some (.number text, rest) := by
  obtain ⟨⟨c, cs, hcons, hc⟩, hword⟩ := h.word
  have hfirst : isWordChar c = true := hword c (hcons ▸ List.mem_cons_self)
  have hne : ∀ literal : List Char, literal.head?.any (fun c => c.isDigit || c == '-') = false →
      text.toList ≠ literal := by
    rintro literal hliteral heq
    rw [← heq, hcons] at hliteral
    rcases hc with hdigit | rfl
    · simp [hdigit] at hliteral
    · cases hliteral
  rw [hcons, List.cons_append, parseValue_word n hfirst, ← List.cons_append, ← hcons,
    parseWord_append hword hrest, if_neg (hne _ rfl), if_neg (hne _ rfl), if_neg (hne _ rfl),
    if_neg (by rw [hcons]; exact List.cons_ne_nil _ _), String.ofList_toList]

theorem parseField_eq (n : Nat) (k : String) (cs : List Char) :
    parseField (n + 1) ('"' :: (quoted k.toList ++ ':' :: cs)) =
      (parseValue n cs).map fun (v, rest) => ((k, v), rest) := by
  simp only [parseField, unquote_quoted, Option.bind_eq_bind, Option.bind_some,
    String.ofList_toList]

theorem parseValue_array (n : Nat) {cs : List Char} (h : ∀ rest, cs ≠ ']' :: rest) :
    parseValue (n + 1) ('[' :: cs) = (parseValue n cs).bind fun first =>
      (parseItems n first.2).map fun others => (.array (first.1 :: others.1), others.2) := by
  rw [parseValue]
  · rfl
  · exact h

theorem parseValue_object (n : Nat) (cs : List Char) :
    parseValue (n + 1) ('\x7b' :: '"' :: cs) = (parseField n ('"' :: cs)).bind fun first =>
      (parseFields n first.2).map fun others => (.object (first.1 :: others.1), others.2) := by
  rw [parseValue]
  · rfl
  · rintro rest ⟨⟩

mutual

/-- **A value is read back** from the front of a text, whatever word does not go on behind it. -/
theorem parseValue_render (v : Json) (hv : v.Canonical) (n : Nat) (hn : v.render.length ≤ n)
    (rest : List Char) (hrest : WordEnds rest) :
    parseValue n (v.render ++ rest) = some (v, rest) := by
  obtain ⟨c, cs, hcons, hclose, -⟩ := render_cons v hv
  obtain _ | n := n
  · rw [hcons] at hn
    cases hn
  cases v with
  | null =>
    show parseValue (n + 1) ('n' :: ("ull".toList ++ rest)) = _
    rw [parseValue_word n rfl]
    exact parseWord_append (w := "null".toList) (List.all_eq_true.mp (by decide)) hrest
  | bool b =>
    cases b with
    | true =>
      show parseValue (n + 1) ('t' :: ("rue".toList ++ rest)) = _
      rw [parseValue_word n rfl]
      exact parseWord_append (w := "true".toList) (List.all_eq_true.mp (by decide)) hrest
    | false =>
      show parseValue (n + 1) ('f' :: ("alse".toList ++ rest)) = _
      rw [parseValue_word n rfl]
      exact parseWord_append (w := "false".toList) (List.all_eq_true.mp (by decide)) hrest
  | number text => exact parseValue_number hv hrest
  | string s =>
    show parseValue (n + 1) ('"' :: (quoted s.toList ++ rest)) = _
    simp only [parseValue, unquote_quoted, Option.map_some, String.ofList_toList]
  | array items =>
    cases items with
    | nil => rfl
    | cons v vs =>
      obtain ⟨hv, hvs⟩ : v.Canonical ∧ CanonicalItems vs := hv
      have hlength : v.render.length + (renderItems vs).length ≤ n := by
        simpa [render] using hn
      have hopen : ∀ cs', v.render ++ (renderItems vs ++ rest) ≠ ']' :: cs' := by
        obtain ⟨d, ds, hd, hne, -⟩ := render_cons v hv
        rw [hd]
        rintro cs' heq
        exact hne (List.cons.inj heq).1
      simp only [render, List.cons_append, List.append_assoc]
      rw [parseValue_array n hopen,
        parseValue_render v hv n (by omega) _ (wordEnds_renderItems vs rest), Option.bind_some,
        parseItems_render vs hvs n (by omega), Option.map_some]
  | object fields =>
    cases fields with
    | nil => rfl
    | cons field fields =>
      obtain ⟨k, v⟩ := field
      obtain ⟨-, hv, hfields⟩ : _ ∧ v.Canonical ∧ CanonicalFields fields := hv
      have hlength : v.render.length + (renderFields fields).length + 2 ≤ n := by
        simp [render] at hn
        omega
      obtain _ | n := n
      · omega
      simp only [render, List.cons_append, List.append_assoc]
      rw [parseValue_object, parseField_eq,
        parseValue_render v hv n (by omega) _ (wordEnds_renderFields fields rest),
        Option.map_some, Option.bind_some, parseFields_render fields hfields (n + 1) (by omega),
        Option.map_some]

theorem parseItems_render (vs : List Json) (hvs : CanonicalItems vs) (n : Nat)
    (hn : (renderItems vs).length ≤ n) (rest : List Char) :
    parseItems n (renderItems vs ++ rest) = some (vs, rest) := by
  cases vs with
  | nil => cases n <;> rfl
  | cons v vs =>
    obtain ⟨hv, hvs⟩ : v.Canonical ∧ CanonicalItems vs := hvs
    have hlength : v.render.length + (renderItems vs).length + 1 ≤ n := by
      simpa [renderItems] using hn
    obtain _ | n := n
    · omega
    simp only [renderItems, List.cons_append, List.append_assoc, parseItems]
    rw [parseValue_render v hv n (by omega) _ (wordEnds_renderItems vs rest)]
    simp only [Option.bind_eq_bind, Option.bind_some]
    rw [parseItems_render vs hvs n (by omega)]
    rfl

theorem parseFields_render (fields : List (String × Json)) (hfields : CanonicalFields fields)
    (n : Nat) (hn : (renderFields fields).length ≤ n) (rest : List Char) :
    parseFields n (renderFields fields ++ rest) = some (fields, rest) := by
  cases fields with
  | nil => cases n <;> rfl
  | cons field fields =>
    obtain ⟨k, v⟩ := field
    obtain ⟨hv, hfields⟩ : v.Canonical ∧ CanonicalFields fields := hfields
    have hlength : v.render.length + (renderFields fields).length + 3 ≤ n := by
      simp [renderFields] at hn
      omega
    obtain _ | _ | n := n
    · omega
    · omega
    simp only [renderFields, List.cons_append, List.append_assoc, parseFields, parseField_eq]
    rw [parseValue_render v hv n (by omega) _ (wordEnds_renderFields fields rest)]
    simp only [Option.map_some, Option.bind_eq_bind, Option.bind_some]
    rw [parseFields_render fields hfields (n + 1) (by omega)]
    rfl

end

/-! ## The pair -/

/-- A value, and nothing behind it. -/
def parse (text : String) : Except String Json :=
  match parseValue text.toList.length text.toList with
  | some (v, []) => .ok v
  | _ => .error "expected value"

theorem parse_render (v : Json) (hv : v.Canonical) : parse (String.ofList v.render) = .ok v := by
  have hread := parseValue_render v hv v.render.length (Nat.le_refl _) [] nofun
  rw [List.append_nil] at hread
  simp only [parse, String.toList_ofList, hread]

/-! ### No blank around it -/

theorem renderItems_concat (vs : List Json) : ∃ cs, renderItems vs = cs ++ [']'] := by
  induction vs with
  | nil => exact ⟨[], rfl⟩
  | cons v vs ih =>
    obtain ⟨cs, hcs⟩ := ih
    exact ⟨',' :: (v.render ++ cs), by simp only [renderItems, hcs, List.cons_append,
      List.append_assoc]⟩

theorem renderFields_concat (fields : List (String × Json)) :
    ∃ cs, renderFields fields = cs ++ ['\x7d'] := by
  induction fields with
  | nil => exact ⟨[], rfl⟩
  | cons field fields ih =>
    obtain ⟨cs, hcs⟩ := ih
    exact ⟨',' :: '"' :: (quoted field.1.toList ++ ':' :: (field.2.render ++ cs)), by
      simp only [renderFields, hcs, List.cons_append, List.append_assoc]⟩

/-- How a value's text ends. -/
theorem render_concat (v : Json) (h : v.Canonical) :
    ∃ cs c, v.render = cs ++ [c] ∧ isWhitespace c = false := by
  cases v with
  | null => exact ⟨"nul".toList, 'l', rfl, rfl⟩
  | bool b =>
    cases b with
    | true => exact ⟨"tru".toList, 'e', rfl, rfl⟩
    | false => exact ⟨"fals".toList, 'e', rfl, rfl⟩
  | number text =>
    obtain ⟨⟨c, cs, hcons, -⟩, hword⟩ := IsInteger.word h
    obtain ⟨cs', c', heq⟩ : ∃ cs' c', text.toList = cs' ++ [c'] := by
      rcases List.eq_nil_or_concat text.toList with hnil | ⟨cs', c', heq⟩
      · rw [hcons] at hnil
        cases hnil
      · exact ⟨cs', c', heq.trans List.concat_eq_append⟩
    refine ⟨cs', c', heq, isWhitespace_of_isWordChar (hword c' ?_)⟩
    rw [heq]
    exact List.mem_concat_self
  | string s => exact ⟨'"' :: s.toList.flatMap escape, '"', rfl, rfl⟩
  | array items =>
    cases items with
    | nil => exact ⟨['['], ']', rfl, rfl⟩
    | cons v vs =>
      obtain ⟨cs, hcs⟩ := renderItems_concat vs
      exact ⟨'[' :: (v.render ++ cs), ']', by simp only [render, hcs, List.cons_append,
        List.append_assoc], rfl⟩
  | object fields =>
    cases fields with
    | nil => exact ⟨['\x7b'], '\x7d', rfl, rfl⟩
    | cons field fields =>
      obtain ⟨cs, hcs⟩ := renderFields_concat fields
      exact ⟨'\x7b' :: '"' :: (quoted field.1.toList ++ ':' :: (field.2.render ++ cs)), '\x7d', by
        simp only [render, hcs, List.cons_append, List.append_assoc], rfl⟩

end Json

/-- What neither begins nor ends with a blank is not trimmed. -/
theorem trim_eq_self {c d : Char} {cs ds : List Char} (heq : c :: cs = ds ++ [d])
    (hc : isWhitespace c = false) (hd : isWhitespace d = false) : trim (c :: cs) = c :: cs := by
  have hfront : (c :: cs).dropWhile isWhitespace = c :: cs :=
    List.dropWhile_cons_of_neg (by rw [hc]; exact Bool.false_ne_true)
  have hback : (ds ++ [d]).reverse.dropWhile isWhitespace = (ds ++ [d]).reverse := by
    rw [List.reverse_append]
    exact List.dropWhile_cons_of_neg (by rw [hd]; exact Bool.false_ne_true)
  unfold trim
  rw [hfront, heq, hback, List.reverse_reverse]

/-- The compact text and its reader. -/
def compactText : JsonSerde where
  toString v := String.ofList v.render
  fromStr := Json.parse

/-- **They keep the law.** -/
theorem compactText_lawful : compactText.Lawful where
  readBack := Json.parse_render
  trimmed := by
    intro v hv
    obtain ⟨c, cs, hcons, -, hc⟩ := v.render_cons hv
    obtain ⟨ds, d, hconcat, hd⟩ := v.render_concat hv
    show trim (String.ofList v.render).toList = (String.ofList v.render).toList
    rw [String.toList_ofList, hcons]
    exact trim_eq_self (hcons.symm.trans hconcat) hc hd
  nonempty := by
    intro v hv hempty
    obtain ⟨c, cs, hcons, -, -⟩ := v.render_cons hv
    have hlist : v.render = [] := String.toList_ofList.symm.trans (congrArg String.toList hempty)
    rw [hcons] at hlist
    cases hlist

end GooseClaw
