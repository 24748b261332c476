import GooseClaw.Found.Utf8

/-!
# Text of the standard library

What the crates use of `str`. A text that is cut and searched is the list of its characters, and
white space is the Unicode property that `trim` and `split_whitespace` look at.
-/

namespace GooseClaw

open Found

/-! ## White space -/

/-- The Unicode property `White_Space`. -/
def isWhitespace (c : Char) : Bool :=
  let u := c.toNat
  (0x9 ≤ u && u ≤ 0xD) || u == 0x20 || u == 0x85 || u == 0xA0 || u == 0x1680
    || (0x2000 ≤ u && u ≤ 0x200A) || u == 0x2028 || u == 0x2029 || u == 0x202F || u == 0x205F
    || u == 0x3000

/-- `s.trim().is_empty()`. -/
def isBlank (text : List Char) : Bool := text.all isWhitespace

/-- `str::trim`. -/
def trim (text : List Char) : List Char :=
  ((text.dropWhile isWhitespace).reverse.dropWhile isWhitespace).reverse

/-! ## Cutting -/

/-- `str::split_whitespace`. -/
def splitWhitespace (text : List Char) : List (List Char) :=
  (text.splitOnP isWhitespace).filter (!·.isEmpty)

/-- `str::strip_prefix`. -/
def stripPrefix (pre text : List Char) : Option (List Char) :=
  if pre <+: text then some (text.drop pre.length) else none

/-- What stands before the first character that satisfies `p`. -/
def before (p : Char → Bool) (text : List Char) : List Char := text.takeWhile fun c => !p c

/-- What stands behind the last `c`, or everything. -/
def afterLast (c : Char) (text : List Char) : List Char :=
  (text.reverse.takeWhile (· != c)).reverse

/-- The line ending `BufRead::lines` takes off: a newline, and then a carriage return. -/
def chomp (line : List Char) : List Char :=
  if line.getLast? = some '\n' then
    let line := line.dropLast
    if line.getLast? = some '\r' then line.dropLast else line
  else line

/-! ## Line ends -/

/-- `\n`. -/
def newline : UInt8 := asciiByte '\n'

def isNewline (b : UInt8) : Bool := b == newline

theorem utf8_push_newline (text : String) : utf8 (text.push '\n') = utf8 text ++ [newline] := by
  rw [utf8_eq_flatMap, String.toList_push, List.flatMap_append, ← utf8_eq_flatMap]
  rfl

theorem isNewline_of_noNewline {text : String} (h : '\n' ∉ text.toList) :
    ∀ b ∈ utf8 text, isNewline b = false := by
  intro b hb
  unfold isNewline
  rw [beq_eq_false_iff_ne]
  rintro rfl
  exact asciiByte_not_mem_utf8 (by decide) h hb

end GooseClaw
