import GooseClaw.Channels.Inbound
import GooseClaw.Text

/-!
# Moderation

`crates/gooseclaw-channels/src/moderation.rs`: the deterministic rules an admitted message is judged
by. Texts are lists of characters here, so that they can be cut and searched; only the size cap
counts bytes.

`str::to_lowercase` is a parameter of the rules: it is the whole Unicode case mapping, and no law
below depends on it. White space is the Unicode property `split_whitespace` cuts at.
-/

namespace GooseClaw

open Found

/-- Why a message was quarantined. -/
inductive ModerationReason
  | injectionPattern (pattern : String)
  | exfilUrl (host : String)
  | oversized
  | trifecta
  deriving DecidableEq

/-- The moderation verdict. -/
inductive Verdict
  | admitted (env : InboundEnvelope)
  | quarantine (sender : SenderKey) (reason : ModerationReason)
  deriving DecidableEq

/-- The reason a verdict holds a message back for. -/
def Verdict.reason? : Verdict → Option ModerationReason
  | .admitted _ => none
  | .quarantine _ reason => some reason

/-! ## Tables -/

/-- Hard payload cap. -/
def MAX_MESSAGE_BYTES : Nat := 64 * 1024

/-- Instruction-shaped substrings. -/
def INJECTION_PATTERNS : List String :=
  ["ignore previous instructions",
   "disregard all rules",
   "ignore all rules",
   "system:",
   "you are now",
   "act as if",
   "new instructions",
   "execute command",
   "run shell",
   "shell command",
   "curl ",
   "wget ",
   "base64 -d",
   "eval(",
   "javascript:",
   "powershell",
   "cmd.exe",
   "rm -rf",
   "sudo ",
   "chmod ",
   "chown "]

/-- Exfil-shaped substrings. -/
def TRIFECTA_PATTERNS : List String :=
  ["send this note",
   "send the vault",
   "forward the vault",
   "upload the vault",
   "post the vault",
   "exfiltrate",
   "pastebin",
   "webhook.site",
   "ngrok",
   "transfer.sh",
   "requestbin"]

/-- URL host allowlist. -/
def URL_HOST_ALLOWLIST : List String := ["github.com", "wecanjustbuildthings.dev"]

/-! ## Matching -/

variable (toLowercase : String → String)

/-- `contains_ci`: the first of the needles that the lowercased text contains. -/
def containsCi (haystack : String) (needles : List String) : Option String :=
  let lower := toLowercase haystack
  needles.find? fun n => (toLowercase n).toList <:+: lower.toList

/-- The host of a token that is an http(s) URL behind leading punctuation. -/
def urlHost? (token : List Char) : Option (List Char) :=
  let t := token.dropWhile fun c => !c.isAlphanum
  let lower := (toLowercase (String.ofList t)).toList
  match (stripPrefix "https://".toList lower).or (stripPrefix "http://".toList lower) with
  | none => none
  | some rest =>
    let authority := before (fun c => c == '/' || c == '?' || c == '#') rest
    let hostPort := afterLast '@' authority
    some (before (· == ':') hostPort)

/-- A host that is listed, or a subdomain of one. -/
def isAllowedHost (host : List Char) : Bool :=
  URL_HOST_ALLOWLIST.any fun allowed =>
    host == allowed.toList || ('.' :: allowed.toList) <:+ host

/-- `has_url`: the first URL host that is not allowed. -/
def hasUrl (text : String) : Option String :=
  (splitWhitespace text.toList).findSome? fun token =>
    match urlHost? toLowercase token with
    | some host => if !host.isEmpty && !isAllowedHost host then some (String.ofList host) else none
    | none => none

/-- Judge one admitted message: quarantine on the first reason found. -/
def moderate (env : InboundEnvelope) : Verdict :=
  if (utf8 env.text).length > MAX_MESSAGE_BYTES then .quarantine env.sender .oversized
  else if (containsCi toLowercase env.text TRIFECTA_PATTERNS).isSome then
    .quarantine env.sender .trifecta
  else match containsCi toLowercase env.text INJECTION_PATTERNS with
    | some p => .quarantine env.sender (.injectionPattern p)
    | none => match hasUrl toLowercase env.text with
      | some host => .quarantine env.sender (.exfilUrl host)
      | none => .admitted env

/-! ## What a text is held back for -/

/-- The text is held back whatever its links are: it is over the cap, or a pattern is found in it. -/
def HeldForText (text : String) : Prop :=
  (utf8 text).length > MAX_MESSAGE_BYTES ∨
    (containsCi toLowercase text TRIFECTA_PATTERNS).isSome = true ∨
    (containsCi toLowercase text INJECTION_PATTERNS).isSome = true

/-- The reason a text is held back for. -/
def reasonFor (text : String) : Option ModerationReason :=
  if (utf8 text).length > MAX_MESSAGE_BYTES then some .oversized
  else if (containsCi toLowercase text TRIFECTA_PATTERNS).isSome then some .trifecta
  else match containsCi toLowercase text INJECTION_PATTERNS with
    | some p => some (.injectionPattern p)
    | none => (hasUrl toLowercase text).map .exfilUrl

/-- A message is judged by its text alone. -/
theorem moderate_eq (env : InboundEnvelope) :
    moderate toLowercase env =
      match reasonFor toLowercase env.text with
      | none => .admitted env
      | some reason => .quarantine env.sender reason := by
  unfold moderate reasonFor
  split
  · rfl
  · split
    · rfl
    · cases containsCi toLowercase env.text INJECTION_PATTERNS with
      | some p => rfl
      | none => cases hasUrl toLowercase env.text <;> rfl

/-- A verdict is about the message judged: it is admitted as it is, or held back under its
sender. -/
theorem moderate_cases (env : InboundEnvelope) :
    moderate toLowercase env = .admitted env ∨
      ∃ reason, moderate toLowercase env = .quarantine env.sender reason := by
  rw [moderate_eq]
  cases reasonFor toLowercase env.text with
  | none => exact .inl rfl
  | some reason => exact .inr ⟨reason, rfl⟩

theorem isSome_reasonFor {text : String} :
    (reasonFor toLowercase text).isSome = true ↔
      HeldForText toLowercase text ∨ (hasUrl toLowercase text).isSome = true := by
  unfold reasonFor HeldForText
  split
  · next h => simp only [Option.isSome_some, h, true_or]
  · next h =>
    split
    · next ht => simp only [Option.isSome_some, ht, true_or, or_true]
    · next ht =>
      cases containsCi toLowercase text INJECTION_PATTERNS with
      | some p => simp only [Option.isSome_some, or_true, true_or]
      | none => simp [h, ht]

theorem moderate_eq_admitted {env : InboundEnvelope} :
    moderate toLowercase env = .admitted env ↔
      ¬ HeldForText toLowercase env.text ∧ ¬ (hasUrl toLowercase env.text).isSome = true := by
  rw [← not_or, ← isSome_reasonFor, moderate_eq]
  cases reasonFor toLowercase env.text <;> simp

end GooseClaw
