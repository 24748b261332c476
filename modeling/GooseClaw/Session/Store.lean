import Mathlib.Logic.Function.Basic
import GooseClaw.Found.Lines
import GooseClaw.Found.Machine
import GooseClaw.Found.Utf8
import GooseClaw.Text

/-!
# The session store

`crates/gooseclaw/src/session.rs`: an append-only file of JSON lines for each session. `serde_json` is
a parameter, and so is the way the file system takes a path to the file it names.

An append meets one of three fates. It runs to its end, its file is not opened, or it is cut short
with some of its line written: `write_all` failed, or the process ended and there is no reply.
-/

namespace GooseClaw

open Found

/-! ## Events -/

inductive SessionEventKind
  | sessionCreated
  | promptSent
  | toolCallRequested
  | gateDecision
  | turnComplete
  | error
  deriving DecidableEq

structure SessionEvent where
  atUnix : UInt64
  kind : SessionEventKind
  detail : String
  deriving DecidableEq

/-- `serde_json::to_string` and `serde_json::from_str` at `SessionEvent`. -/
structure Serde where
  toString : SessionEvent → Except String String
  fromStr : String → Except String SessionEvent

/-! ## Files -/

/-- `std::io::Error`: of kind `InvalidData`, or as the system reports it. -/
inductive IoError
  | invalidData (message : String)
  | system (message : String)

/-- The files there are, with their bytes. -/
abbrev Disk (F : Type*) := F → Option (List UInt8)

namespace Disk

variable {F : Type*}

/-- The bytes of a file; none when it does not exist. -/
def content (disk : Disk F) (file : F) : List UInt8 := (disk file).getD []

variable [DecidableEq F]

/-- `bytes` put behind a file, which is created when it does not exist. -/
def extend (disk : Disk F) (file : F) (bytes : List UInt8) : Disk F :=
  Function.update disk file (some (disk.content file ++ bytes))

theorem content_extend_self (disk : Disk F) (file : F) (bytes : List UInt8) :
    (disk.extend file bytes).content file = disk.content file ++ bytes := by
  unfold extend
  rw [content, Function.update_self, Option.getD_some]

theorem content_extend_of_ne (disk : Disk F) {file other : F} (h : other ≠ file)
    (bytes : List UInt8) : (disk.extend file bytes).content other = disk.content other := by
  unfold extend
  rw [content, Function.update_of_ne h, content]

end Disk

/-- `Path::join` on Unix. -/
def joinPath (root name : String) : String :=
  if name.toList.head? = some '/' then name
  else if root.toList.getLast?.any (· != '/') then root ++ "/" ++ name
  else root ++ name

/-! ## The store -/

/-- What becomes of an append. -/
inductive Fate
  /-- The file was not opened. -/
  | refused (e : IoError)
  /-- Only so many bytes of the line reached the file. `write_all` reported the error, or the process
  ended. -/
  | cut (written : Nat) (report : Option IoError)
  | completes

/-- A call of `append`. -/
structure Append where
  session : String
  event : SessionEvent
  fate : Fate

/-- What `append` returned, if it did. -/
abbrev AppendReply := Option (Except IoError Unit)

def AppendReply.isOk : AppendReply → Bool
  | some (.ok _) => true
  | _ => false

structure JsonlSessionStore where
  root : String

namespace JsonlSessionStore

/-- The file's name in the directory. -/
def fileName (sessionId : String) : String := sessionId ++ ".jsonl"

def pathFor (store : JsonlSessionStore) (sessionId : String) : String :=
  joinPath store.root (fileName sessionId)

variable (serde : Serde) {F : Type*} [DecidableEq F] (resolve : String → F)
  (store : JsonlSessionStore)

def append (disk : Disk F) (sessionId : String) (event : SessionEvent) (fate : Fate) :
    AppendReply × Disk F :=
  let file := resolve (store.pathFor sessionId)
  match fate with
  | .refused e => (some (.error e), disk)
  | fate =>
    match serde.toString event with
    | .error e => (some (.error (.invalidData e)), disk.extend file [])
    | .ok text =>
      let line := utf8 (text.push '\n')
      match fate with
      | .cut written report => (report.map .error, disk.extend file (line.take written))
      | _ => (some (.ok ()), disk.extend file line)

/-- One line as `BufRead::lines` yields it. -/
def readLine (raw : List UInt8) : Except IoError String :=
  match decodeUtf8 raw with
  | none => .error (.invalidData "stream did not contain valid UTF-8")
  | some line => .ok (String.ofList (chomp line.toList))

/-- The loop of `load`, with the events read so far. -/
def loadLoop (out : List SessionEvent) : List (List UInt8) → Except IoError (List SessionEvent)
  | [] => .ok out
  | raw :: rest =>
    match readLine raw with
    | .error e => .error e
    | .ok line =>
      if isBlank line.toList then loadLoop out rest
      else
        match serde.fromStr line with
        | .error e => .error (.invalidData e)
        | .ok event => loadLoop (out ++ [event]) rest

def load (disk : Disk F) (sessionId : String) : Except IoError (List SessionEvent) :=
  match disk (resolve (store.pathFor sessionId)) with
  | none => .ok []
  | some bytes => loadLoop serde [] (lines isNewline bytes)

/-- The store as a service of appends over the disk. -/
def service : Service (Disk F) Append AppendReply where
  handle disk c := store.append serde resolve disk c.session c.event c.fate

end JsonlSessionStore

end GooseClaw
