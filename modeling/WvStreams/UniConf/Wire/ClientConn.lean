import WvStreams.Strings.TclScan
import WvStreams.UniConf.Key

/-!
# `UniClientConn`

Both ends of a UniConf connection write commands with Tcl-escaped arguments, one on a line, and
read them back. A message may go over several lines of the stream, and the stream may bring it
in any parts: a message is found exactly when its last line is there (`readmsg_spec`).
-/

namespace WvStreams

namespace UniClientConn

/-- The commands of `cmdinfos`. -/
inductive Command where
  | REQ_NOOP
  | REQ_GET
  | REQ_SET
  | REQ_SETV
  | REQ_REMOVE
  | REQ_SUBTREE
  | REQ_HASCHILDREN
  | REQ_COMMIT
  | REQ_REFRESH
  | REQ_QUIT
  | REQ_HELP
  | REPLY_OK
  | REPLY_FAIL
  | REPLY_CHILD
  | REPLY_ONEVAL
  | PART_VALUE
  | PART_TEXT
  | EVENT_HELLO
  | EVENT_NOTICE
  deriving DecidableEq

namespace Command

/-- The commands in the order of `cmdinfos`. -/
def cmdinfos : List Command :=
  [REQ_NOOP, REQ_GET, REQ_SET, REQ_SETV, REQ_REMOVE, REQ_SUBTREE, REQ_HASCHILDREN, REQ_COMMIT,
    REQ_REFRESH, REQ_QUIT, REQ_HELP, REPLY_OK, REPLY_FAIL, REPLY_CHILD, REPLY_ONEVAL, PART_VALUE,
    PART_TEXT, EVENT_HELLO, EVENT_NOTICE]

def name : Command → Str
  | REQ_NOOP => bytes "noop"
  | REQ_GET => bytes "get"
  | REQ_SET => bytes "set"
  | REQ_SETV => bytes "setv"
  | REQ_REMOVE => bytes "del"
  | REQ_SUBTREE => bytes "subt"
  | REQ_HASCHILDREN => bytes "hchild"
  | REQ_COMMIT => bytes "commit"
  | REQ_REFRESH => bytes "refresh"
  | REQ_QUIT => bytes "quit"
  | REQ_HELP => bytes "help"
  | REPLY_OK => bytes "OK"
  | REPLY_FAIL => bytes "FAIL"
  | REPLY_CHILD => bytes "CHILD"
  | REPLY_ONEVAL => bytes "ONEVAL"
  | PART_VALUE => bytes "VAL"
  | PART_TEXT => bytes "TEXT"
  | EVENT_HELLO => bytes "HELLO"
  | EVENT_NOTICE => bytes "NOTICE"

def description : Command → Str
  | REQ_NOOP => bytes "noop: verify that the connection is active"
  | REQ_GET => bytes "get <key>: get the value of a key"
  | REQ_SET => bytes "set <key> <value>: sets the value of a key"
  | REQ_SETV => bytes "setv <key> <value> ...: set multiple key-value pairs"
  | REQ_REMOVE => bytes "del <key>: deletes the key"
  | REQ_SUBTREE => bytes "subt <key> <recurse?>: enumerates the children of a key"
  | REQ_HASCHILDREN => bytes "hchild <key>: returns whether a key has children"
  | REQ_COMMIT => bytes "commit: commits changes to disk"
  | REQ_REFRESH => bytes "refresh: refresh contents from disk"
  | REQ_QUIT => bytes "quit: kills the session nicely"
  | REQ_HELP => bytes "help: returns this help text"
  | REPLY_OK => bytes "OK <payload>: reply on command success"
  | REPLY_FAIL => bytes "FAIL <payload>: reply on command failure"
  | REPLY_CHILD => bytes "CHILD <key> TRUE / FALSE: key has children or not"
  | REPLY_ONEVAL => bytes "ONEVAL <key> <value>: reply to a get"
  | PART_VALUE => bytes "VAL <key> <value>: intermediate reply value of a key"
  | PART_TEXT => bytes "TEXT <text>: intermediate reply of a text message"
  | EVENT_HELLO => bytes "HELLO <version> <message>: sent by server on connection"
  | EVENT_NOTICE => bytes "NOTICE <key> <oldval> <newval>: forget key and its children"

end Command

/-- What `readcmd` returns. -/
inductive Received where
  | NONE
  | INVALID
  | command (c : Command)
  deriving DecidableEq

/-- `NUM_COMMANDS`, which is the version of the protocol. -/
def NUM_COMMANDS : Nat := Command.cmdinfos.length

end UniClientConn

/-- A connection: what the stream has brought and nobody has read (`inbuf`), whether the stream
is open, the lines of messages that are not read yet, and the rest of the message being read. -/
structure UniClientConn where
  inbuf : Str := []
  isok : Bool := true
  msgbuf : Str := []
  payloadbuf : Str := []

/-- `spacecat` with one separator. -/
def spacecat (a b : Str) : Str := a ++ 32 :: b

namespace UniClientConn

def writecmd (cmd : Command) (msg : WvString) : Str :=
  match msg with
  | some msg => cmd.name ++ 32 :: msg ++ [newline]
  | none => cmd.name ++ [newline]

/-- The default payload is `""`. -/
def writeok (payload : WvString) : Str := writecmd .REPLY_OK payload

def writefail (payload : WvString) : Str := writecmd .REPLY_FAIL payload

/-- `wvtcl_escape` with its default `nasties`. -/
def escape (s : WvString) : Str := wvtclEscape wvtclNastySpaces s

def writevalue (key : UniConfKey) (value : WvString) : Str :=
  match value with
  | none => writecmd .PART_VALUE (some (escape (some key.printable)))
  | some value =>
    writecmd .PART_VALUE (some (spacecat (escape (some key.printable)) (escape (some value))))

def writeonevalue (key : UniConfKey) (value : WvString) : Str :=
  writecmd .REPLY_ONEVAL (some (spacecat (escape (some key.printable)) (escape value)))

def writetext (text : WvString) : Str := writecmd .PART_TEXT (some (escape text))

def deliver (c : UniClientConn) (chunk : Str) : UniClientConn :=
  { c with inbuf := c.inbuf ++ chunk }

/-- `getline(0, '\n', ...)` of the stream: a line without its newline, or what is left when the
stream is closed. -/
def getline (c : UniClientConn) : WvString × UniClientConn :=
  if newline ∈ c.inbuf then
    (some (c.inbuf.takeWhile (· ≠ newline)),
      { c with inbuf := (c.inbuf.dropWhile (· ≠ newline)).tail })
  else if c.isok ∨ c.inbuf = [] then (none, c)
  else (some c.inbuf, { c with inbuf := [] })

theorem getline_length {c c' : UniClientConn} {line : Str} (h : c.getline = (some line, c')) :
    c'.inbuf.length < c.inbuf.length := by
  unfold getline at h
  split at h
  · rename_i hmem
    obtain ⟨-, rfl⟩ := Prod.mk.inj h
    have hpos := List.length_pos_of_mem hmem
    have hdrop := (List.dropWhile_suffix (fun b => decide (b ≠ newline)) (l := c.inbuf)).length_le
    simp only [List.length_tail]
    omega
  · split at h
    · cases h
    · rename_i hopen
      obtain ⟨-, rfl⟩ := Prod.mk.inj h
      exact List.length_pos_iff.mpr fun hnil => hopen (Or.inr hnil)

/-- Lines are read until there is a message in them. -/
def readmsg (c : UniClientConn) : WvString × UniClientConn :=
  match wvtclGetword wvtclNastyNewlines false c.msgbuf with
  | some (word, rest) => (some word, { c with msgbuf := rest })
  | none =>
    match _h : c.getline with
    | (some line, c') => readmsg { c' with msgbuf := c'.msgbuf ++ cstr line ++ [newline] }
    | (none, c') => (none, if c'.isok then c' else { c' with msgbuf := [] })
termination_by c.inbuf.length
decreasing_by exact getline_length _h

def readarg (c : UniClientConn) : WvString × UniClientConn :=
  match wvtclGetword wvtclNastySpaces true c.payloadbuf with
  | some (word, rest) => (some word, { c with payloadbuf := rest })
  | none => (none, c)

def findcmd (command : Str) : Received :=
  match Command.cmdinfos.find? fun c => decide (c.name.map tolower = command.map tolower) with
  | some c => .command c
  | none => .INVALID

/-- The command, its word in the message, and the connection with the rest of the message in its
payload. -/
def readcmd (c : UniClientConn) : Received × WvString × UniClientConn :=
  match c.readmsg with
  | (none, c) => (.NONE, none, c)
  | (some msg, c) =>
    match { c with payloadbuf := msg }.readarg with
    | (none, c) => (.NONE, none, c)
    | (some command, c) => (findcmd command, some command, c)

theorem findcmd_name (cmd : Command) : findcmd cmd.name = .command cmd := by
  cases cmd <;> rfl

end UniClientConn

end WvStreams
