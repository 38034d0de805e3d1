import WvStreams.Strings.StrUtils
import WvStreams.UniConf.Filter.FilterGen
import WvStreams.UniConf.Wire.RoundTrip

/-!
# `UniConfDaemonConn` and `UniClientGen`

The daemon executes the commands of a client on its tree, which may be any generator. It says
in its greeting that it knows all commands of the table, but `execute` has no case for `setv`:
a bulk set changes nothing (`setv_iff`).
-/

namespace WvStreams

open Lib List UniConfKey

/-- The decimal number at the start of a string, as `atoi` and `%d` read it. -/
def scanInt (s : Str) : Option Int :=
  let s := s.dropWhile isspace
  let negative := s.head? = some 45
  let s := if s.head? = some 45 ∨ s.head? = some 43 then s.tail else s
  let digits := s.takeWhile fun c => decide (48 ≤ c ∧ c ≤ 57)
  if digits = [] then none
  else
    let num : Int := digits.foldl (fun num c => num * 10 + (c.toNat - 48 : Nat)) 0
    some (if negative then -num else num)

/-- `getdirname` of a string that is not null. -/
def getdirname (fullname : Str) : Str :=
  if _h : fullname = [] then fullname
  else if slash ∉ fullname then bytes "."
  else if fullname.getLast? = some slash then getdirname fullname.dropLast
  else
    let dir := (fullname.rdropWhile (· ≠ slash)).dropLast
    if dir = [] then [slash] else dir
termination_by fullname.length
decreasing_by
  have hpos := List.length_pos_iff.mpr _h
  rw [List.length_dropLast]
  omega

namespace UniConfDaemonConn

open UniClientConn

def hello : Str :=
  writecmd .EVENT_HELLO (some (spacecat (escape (some (bytes "UniConf Server ready.")))
    (escape (some (bytes (toString NUM_COMMANDS))))))

section Requests

variable {σ : Type} (gen : IUniConfGen σ) (depth : Nat)

def do_invalid (c : Str) : Str := writefail (some (bytes "unknown command: " ++ c))

def do_malformed (c : Command) : Str := writefail (some (bytes "malformed request: " ++ c.name))

def do_get (key : UniConfKey) (s : σ) : Str :=
  match gen.get key s with
  | none => writefail (some [])
  | some value => writeonevalue key (some value)

def do_set (key : UniConfKey) (value : Str) (s : σ) : σ := gen.set key (some value) s

/-- The body of the loop of `do_remove`: the key is removed, and its section if that has no
children any more. -/
def removeChild (key : UniConfKey) (s : σ) : σ :=
  let s := gen.set key none s
  let sect_name := getdirname key.printable
  let sect_key := if sect_name = bytes "." then [] else UniConfKey.ofString sect_name
  if gen.haschildren sect_key s then s else gen.set sect_key none s

/-- The loop of `do_remove`, down to some depth. The children of a key are looked up when the
iterator gets there, after the key itself was removed. -/
def removeUnder (depth : Nat) (top : UniConfKey) (s : σ) : σ :=
  match depth with
  | 0 => s
  | depth + 1 =>
    ((gen.iterator top s).getD []).foldl
      (fun s child =>
        let key := UniConfKey.concat top [child.1]
        removeUnder depth key (removeChild gen key s)) s

/-- The slashes at the end of a key become blanks, unless one is the whole of it. -/
def blankSlashes (strkey : Str) : Str :=
  let n := (strkey.tail.reverse.takeWhile (· = slash)).length
  strkey.take (strkey.length - n) ++ List.replicate n 32

def do_remove (_key : UniConfKey) (s : σ) : σ :=
  let key := UniConfKey.ofString (trimEnd (blankSlashes _key.printable))
  if gen.exists_ key s then
    let single_key := ((gen.iterator key s).getD []).isEmpty
    let s := removeUnder gen depth key s
    if single_key then gen.set key none s else s
  else s

def do_subtree (key : UniConfKey) (recursive : Bool) (s : σ) : Str :=
  if gen.exists_ key s then
    let values :=
      if recursive then
        (gen.recursiveiterator depth key s).map fun child =>
          writevalue (List.drop key.length child.1) child.2
      else ((gen.iterator key s).getD []).map fun child => writevalue [child.1] child.2
    values.flatten ++ writeok (some [])
  else writefail (some [])

def do_haschildren (key : UniConfKey) (s : σ) : Str :=
  writecmd .REPLY_CHILD (some (spacecat (escape (some key.printable))
    (if gen.haschildren key s then bytes "TRUE" else bytes "FALSE")))

def do_help : Str :=
  (Command.cmdinfos.flatMap fun c => writetext (some c.description)) ++ writeok (some [])

/-- The switch of `execute`: the new tree, and what is written to the client. -/
def perform (cmd : Received) (command_string : Str) (arg1 arg2 : WvString) (s : σ) : σ × Str :=
  match cmd, arg1, arg2 with
  | .NONE, _, _ => (s, [])
  | .INVALID, _, _ => (s, do_invalid command_string)
  | .command .REQ_NOOP, _, _ => (s, writeok (some []))
  | .command .REQ_GET, some key, _ => (s, do_get gen (UniConfKey.ofString key) s)
  | .command .REQ_SET, some key, some value => (do_set gen (UniConfKey.ofString key) value s, [])
  | .command .REQ_REMOVE, some key, _ => (do_remove gen depth (UniConfKey.ofString key) s, [])
  | .command .REQ_SUBTREE, some key, recurse =>
    (s, do_subtree gen depth (UniConfKey.ofString key) ((recurse.bind scanInt).getD 0 = 1) s)
  | .command .REQ_HASCHILDREN, some key, _ => (s, do_haschildren gen (UniConfKey.ofString key) s)
  | .command .REQ_COMMIT, _, _ => (gen.commit s, writeok (some []))
  | .command .REQ_REFRESH, _, _ =>
    let (s, ok) := gen.refresh s
    (s, if ok then writeok (some []) else writefail (some []))
  | .command .REQ_QUIT, _, _ => (s, writeok (some []))
  | .command .REQ_HELP, _, _ => (s, do_help)
  -- the requests whose first or second argument is missing
  | .command .REQ_GET, none, _ => (s, do_malformed .REQ_GET)
  | .command .REQ_SET, _, _ => (s, do_malformed .REQ_SET)
  | .command .REQ_REMOVE, none, _ => (s, do_malformed .REQ_REMOVE)
  | .command .REQ_SUBTREE, none, _ => (s, do_malformed .REQ_SUBTREE)
  | .command .REQ_HASCHILDREN, none, _ => (s, do_malformed .REQ_HASCHILDREN)
  -- the default, which `setv` comes to
  | .command _, _, _ => (s, do_invalid command_string)

/-- One call of `execute`: the tree and all that was written to the client go with the
connection, which `quit` closes. -/
def execute (d : UniClientConn × σ × Str) : UniClientConn × σ × Str :=
  let (c, s, out) := d
  match c.readcmd with
  | (.NONE, _, c) => (c, s, out)
  | (cmd, command_string, c) =>
    let (arg1, c) := c.readarg
    let (arg2, c) := c.readarg
    let (s, reply) := perform gen depth cmd (command_string.getD []) arg1 arg2 s
    (if cmd = .command .REQ_QUIT then { c with isok := false } else c, s, out ++ reply)

end Requests

end UniConfDaemonConn

namespace UniClientGen

open UniClientConn

/-- What `conncallback` does with the version of the generator: it reads it in a greeting, and
closes the connection if the greeting is not that of a UniConf server. -/
def conncallback (g : UniClientConn × Int) : UniClientConn × Int :=
  let (c, version) := g
  match c.readcmd with
  | (.command .EVENT_HELLO, _, c) =>
    match wvtclDecode (.ofChar 32) true c.payloadbuf with
    | server :: greeting =>
      if server.take 7 = bytes "UniConf" then
        ({ c with payloadbuf := [] }, (scanInt (greeting.headD [])).getD 0)
      else ({ c with payloadbuf := [], isok := false }, version)
    | [] => ({ c with payloadbuf := [], isok := false }, version)
  | (_, _, c) => (c, version)

def set (key : UniConfKey) (newvalue : WvString) : Str :=
  match newvalue with
  | none => writecmd .REQ_REMOVE (some (escape (some key.printable)))
  | some newvalue =>
    writecmd .REQ_SET (some (spacecat (escape (some key.printable)) (escape (some newvalue))))

def setv (version : Int) (pairs : List UniConfPair) : Str :=
  if 19 ≤ version then
    (pairs.flatMap fun pair => writecmd .REQ_SETV
      (some (spacecat (escape (some pair.key.val.printable)) (escape pair.value)))) ++
      writecmd .REQ_SETV none
  else pairs.flatMap fun pair => set pair.key pair.value

end UniClientGen

namespace UniClientConn

/-- The string has unmatched braces and ends in a newline, so that it is left open as the last
argument of a line. -/
def leftOpen (s : Str) : Bool := !braces false 0 s && s.getLast? == some newline

def getarg (payload : Str) : WvString × Str :=
  match wvtclGetword wvtclNastySpaces true payload with
  | some (word, rest) => (some word, rest)
  | none => (none, payload)

theorem readarg_eq (c : UniClientConn) :
    c.readarg = ((getarg c.payloadbuf).1, { c with payloadbuf := (getarg c.payloadbuf).2 }) := by
  rw [readarg, getarg]
  cases wvtclGetword wvtclNastySpaces true c.payloadbuf with
  | none => rfl
  | some r => rfl

/-- Split characters that find the arguments of a line. -/
structure Splits (splitchars : WvStringMask) : Prop where
  space : splitchars.set 32 = true
  kept : ∀ c, splitchars.set c = true → wvtclNastySpaces.set c = true
  brace : splitchars.set lbrace = false
  literal : splitchars.set backslash = false

theorem splits_spaces : Splits wvtclNastySpaces := ⟨by decide, fun _ h => h, by decide, by decide⟩

section Arguments

variable {splitchars : WvStringMask}

theorem Splits.escape_written (h : Splits splitchars) (s : Str) : ∃ w : Written splitchars,
    w.form.text = escape (some s) ∧ w.form.value = s ∧ w.form.isQuoted = false ∧
      (w.form.continued = true ↔ leftOpen s = true) := by
  have hstarts := recognizable h.brace h.literal wvtclNastySpaces s
  refine ⟨escaped h.kept hstarts, ?_, ?_, ?_, ?_⟩
  · exact (wvtclEscape_written h.kept hstarts).symm
  · exact escapeForm_value _ s
  · exact escapeForm_isQuoted _ s
  · refine escapeForm_continued.trans ?_
    have hnasty : nasty wvtclNastySpaces newline = true := by decide
    simp [leftOpen, hnasty]

theorem Splits.getword_more (h : Splits splitchars) (s rest : Str) :
    wvtclGetword splitchars true (32 :: spacecat (escape (some s)) rest) = some (s, 32 :: rest) := by
  obtain ⟨w, htext, hvalue, hquoted, -⟩ := h.escape_written s
  have hlead : ∀ c ∈ ([32] : Str), splitchars.set c = true := by simpa using h.space
  have hitem := (w.passed hquoted).getword_item hlead h.space (by decide) rest
  rw [htext, hvalue] at hitem
  exact hitem

theorem Splits.getword_last (h : Splits splitchars) (s : Str) :
    wvtclGetword splitchars true (32 :: escape (some s)) =
      if leftOpen s then none else some (s, []) := by
  obtain ⟨w, htext, hvalue, hquoted, hcontinued⟩ := h.escape_written s
  have hlead : ∀ c ∈ ([32] : Str), splitchars.set c = true := by simpa using h.space
  have hlast := (w.passed hquoted).getword_last hlead
  rw [htext, hvalue] at hlast
  exact hlast.trans (if_congr hcontinued rfl rfl)

end Arguments

theorem getarg_more (s rest : Str) :
    getarg (32 :: spacecat (escape (some s)) rest) = (some s, 32 :: rest) := by
  rw [getarg, splits_spaces.getword_more]

theorem getarg_last (s : Str) :
    (getarg (32 :: escape (some s))).1 = if leftOpen s then none else some s := by
  rw [getarg, splits_spaces.getword_last]
  cases leftOpen s with
  | true => rfl
  | false => rfl

end UniClientConn

namespace UniConfDaemonConn

open UniClientConn

variable {σ : Type} (gen : IUniConfGen σ) (depth : Nat)

/-- What a line does to the tree and to what is written to the client. -/
def served (t : σ × Str) (l : CommandLine) : σ × Str :=
  let r := perform gen depth (.command l.command) l.command.name (getarg l.payload).1
    (getarg (getarg l.payload).2).1 t.1
  (r.1, t.2 ++ r.2)

theorem execute_waits : Waits (execute gen depth) := by
  rintro ⟨c, s, out⟩ h
  rw [execute]
  rw [readcmd_of_none h]

theorem execute_handles {l : CommandLine} (hquit : l.command ≠ .REQ_QUIT) :
    Handles (execute gen depth) CommandLine.text (served gen depth) l := by
  rintro ⟨c, s, out⟩ h
  have hopen : ¬ Received.command l.command = .command .REQ_QUIT := by simpa using hquit
  rw [execute]
  rw [CommandLine.readcmd h]
  dsimp only
  rw [readarg_eq, readarg_eq]
  rw [if_neg hopen]
  exact ⟨rfl, _, rfl⟩

theorem execute_lines {ls : List CommandLine} (hquit : ∀ l ∈ ls, l.command ≠ .REQ_QUIT) (s : σ)
    {events : List Event} (hevents : delivered events = lines CommandLine.text ls) {n : Nat}
    (hn : ls.length ≤ n) :
    (run (execute gen depth) ({}, s, []) (events ++ replicate n .poll)).2 =
      ls.foldl (served gen depth) (s, []) :=
  (run_framed (fun l _ => l.framed) (execute_waits gen depth)
    (fun l hl => execute_handles gen depth (hquit l hl)) (s, []) hevents).2 n hn

/-- What one `set` of a client does to the tree. An argument that is left open is not found, and
the request is malformed without it. -/
def told (s : σ) (pair : UniConfPair) : σ :=
  let key := UniConfKey.ofString pair.key.val.printable
  match pair.value with
  | none => if leftOpen pair.key.val.printable then s else do_remove gen depth key s
  | some value => if leftOpen value then s else do_set gen key value s

structure Sendable (pair : UniConfPair) : Prop where
  key : (0 : Byte) ∉ pair.key.val.printable
  value : ∀ s ∈ pair.value, (0 : Byte) ∉ s

theorem passes_escape {s : Str} (h : (0 : Byte) ∉ s) :
    Passes wvtclNastyNewlines (escape (some s)) ∧ (0 : Byte) ∉ escape (some s) := by
  have hspace : (32 : Byte) ≠ 0 := by decide
  exact ⟨passes_payload [⟨s, h⟩], nul_not_mem_encodeLoop hspace [⟨s, h⟩]⟩

theorem passes_spacecat {s t : Str} (hs : Passes wvtclNastyNewlines s ∧ (0 : Byte) ∉ s)
    (ht : Passes wvtclNastyNewlines t ∧ (0 : Byte) ∉ t) :
    Passes wvtclNastyNewlines (spacecat s t) ∧ (0 : Byte) ∉ spacecat s t := by
  have hspace : Passes wvtclNastyNewlines [32] := passes_plain (by decide)
  refine ⟨hs.1.append (hspace.append ht.1), fun h0 => ?_⟩
  rcases mem_append.mp h0 with h0 | h0
  · exact hs.2 h0
  · rcases mem_cons.mp h0 with h0 | h0
    · exact absurd h0 (by decide)
    · exact ht.2 h0

def line (command : Command) (msg : Str)
    (h : Passes wvtclNastyNewlines msg ∧ (0 : Byte) ∉ msg) : CommandLine where
  command := command
  msg := some msg
  passes := by
    intro s hs
    obtain rfl := Option.some.inj hs
    exact h.1
  nul := by
    intro s hs
    obtain rfl := Option.some.inj hs
    exact h.2

open UniClientGen

theorem set_line {pair : UniConfPair} (h : Sendable pair) :
    ∃ l : CommandLine, set pair.key pair.value = l.text ++ [newline] ∧
      l.command ≠ .REQ_QUIT ∧ ∀ t, (served gen depth t l).1 = told gen depth t.1 pair := by
  obtain ⟨⟨key, hvalid⟩, value⟩ := pair
  have hkey := passes_escape h.key
  cases value with
  | none =>
    refine ⟨line .REQ_REMOVE _ hkey, (line .REQ_REMOVE _ hkey).writecmd_eq, nofun, ?_⟩
    intro t
    have harg : (getarg (line .REQ_REMOVE _ hkey).payload).1 = _ := getarg_last key.printable
    rw [served, harg, told]
    cases leftOpen key.printable with
    | true => rfl
    | false => rfl
  | some value =>
    have hboth := passes_spacecat hkey (passes_escape (h.value value rfl))
    refine ⟨line .REQ_SET _ hboth, (line .REQ_SET _ hboth).writecmd_eq, nofun, ?_⟩
    intro t
    have harg : getarg (line .REQ_SET _ hboth).payload = _ :=
      getarg_more key.printable (escape (some value))
    rw [served, harg, getarg_last, told]
    dsimp only
    cases leftOpen value with
    | true => rfl
    | false => rfl

theorem set_lines {pairs : List UniConfPair} (h : ∀ pair ∈ pairs, Sendable pair) :
    ∃ ls : List CommandLine, lines CommandLine.text ls =
        (pairs.flatMap fun pair => set pair.key pair.value) ∧
      ls.length = pairs.length ∧ (∀ l ∈ ls, l.command ≠ .REQ_QUIT) ∧
      ∀ t, (ls.foldl (served gen depth) t).1 = pairs.foldl (told gen depth) t.1 := by
  induction pairs with
  | nil => exact ⟨[], rfl, rfl, by simp, fun _ => rfl⟩
  | cons pair pairs ih =>
    obtain ⟨hpair, hpairs⟩ := forall_mem_cons.mp h
    obtain ⟨l, htext, hquit, htold⟩ := set_line gen depth hpair
    obtain ⟨ls, hlines, hlen, hquits, hfold⟩ := ih hpairs
    refine ⟨l :: ls, ?_, ?_, forall_mem_cons.mpr ⟨hquit, hquits⟩, ?_⟩
    · rw [flatMap_cons, ← hlines, htext]
      rfl
    · rw [length_cons, length_cons, hlen]
    · intro t
      rw [foldl_cons, foldl_cons, hfold, htold]

theorem setv_lines {pairs : List UniConfPair} (h : ∀ pair ∈ pairs, Sendable pair) :
    ∃ ls : List CommandLine, lines CommandLine.text ls = setv 19 pairs ∧
      ls.length = pairs.length + 1 ∧ ∀ l ∈ ls, l.command = .REQ_SETV := by
  have hend : ∃ l : CommandLine, writecmd .REQ_SETV none = l.text ++ [newline] ∧
      l.command = .REQ_SETV :=
    ⟨⟨.REQ_SETV, none, by simp, by simp⟩, rfl, rfl⟩
  obtain ⟨last, hlast, hcommand⟩ := hend
  rw [setv, if_pos (le_refl _)]
  induction pairs with
  | nil =>
    refine ⟨[last], ?_, rfl, by simpa using hcommand⟩
    simpa [lines] using hlast.symm
  | cons pair pairs ih =>
    obtain ⟨hpair, hpairs⟩ := forall_mem_cons.mp h
    obtain ⟨ls, hlines, hlen, hsetv⟩ := ih hpairs
    have hvalue : Passes wvtclNastyNewlines (escape pair.value) ∧ (0 : Byte) ∉ escape pair.value := by
      cases hv : pair.value with
      | none => exact ⟨fun _ _ => rfl, not_mem_nil⟩
      | some value => exact passes_escape (hpair.value value hv)
    have hboth := passes_spacecat (passes_escape hpair.key) hvalue
    refine ⟨line .REQ_SETV _ hboth :: ls, ?_, ?_, forall_mem_cons.mpr ⟨rfl, hsetv⟩⟩
    · rw [flatMap_cons, append_assoc, ← hlines]
      exact congrArg (· ++ lines CommandLine.text ls) (line .REQ_SETV _ hboth).writecmd_eq.symm
    · rw [length_cons, length_cons, hlen]

theorem served_setv {l : CommandLine} (h : l.command = .REQ_SETV) (t : σ × Str) :
    (served gen depth t l).1 = t.1 := by
  rw [served, h]
  rfl

theorem foldl_setv {ls : List CommandLine} (h : ∀ l ∈ ls, l.command = .REQ_SETV) (t : σ × Str) :
    (ls.foldl (served gen depth) t).1 = t.1 := by
  induction ls generalizing t with
  | nil => rfl
  | cons l ls ih =>
    obtain ⟨hl, hls⟩ := forall_mem_cons.mp h
    rw [foldl_cons, ih hls, served_setv gen depth hl]

end UniConfDaemonConn

namespace UniClientGen

open UniClientConn

def helloLine : CommandLine :=
  UniConfDaemonConn.line .EVENT_HELLO _
    (UniConfDaemonConn.passes_spacecat
      (UniConfDaemonConn.passes_escape (show (0 : Byte) ∉ bytes "UniConf Server ready." by decide))
      (UniConfDaemonConn.passes_escape
        (show (0 : Byte) ∉ bytes (toString NUM_COMMANDS) by decide +kernel)))

theorem hello_eq : UniConfDaemonConn.hello = helloLine.text ++ [newline] := helloLine.writecmd_eq

theorem decode_hello : wvtclDecode (.ofChar 32) true helloLine.payload =
    [bytes "UniConf Server ready.", bytes "19"] := by
  have hfirst : wvtclGetword (.ofChar 32) true helloLine.payload =
      some (bytes "UniConf Server ready.", bytes " 19") := by decide +kernel
  have hsecond : wvtclGetword (.ofChar 32) true (bytes " 19") = some (bytes "19", []) := by
    decide +kernel
  rw [wvtclDecode_of_some hfirst, wvtclDecode_of_some hsecond, wvtclDecode_of_none rfl]

theorem conncallback_waits : Waits conncallback := by
  rintro ⟨c, version⟩ h
  rw [conncallback]
  rw [readcmd_of_none h]

theorem conncallback_hello : Handles conncallback CommandLine.text (fun _ _ => 19) helloLine := by
  rintro ⟨c, version⟩ h
  have hcommand : helloLine.command = .EVENT_HELLO := rfl
  have hversion : (scanInt (bytes "19")).getD 0 = 19 := by decide +kernel
  rw [conncallback]
  rw [CommandLine.readcmd h, hcommand]
  dsimp only
  rw [decode_hello]
  dsimp only
  rw [if_pos (by decide)]
  exact ⟨hversion, _, rfl⟩

theorem version_hello {events : List Event} (hevents : delivered events = UniConfDaemonConn.hello)
    {n : Nat} (hn : 1 ≤ n) : (run conncallback ({}, 0) (events ++ replicate n .poll)).2 = 19 := by
  rw [hello_eq] at hevents
  have hlines : lines CommandLine.text [helloLine] = helloLine.text ++ [newline] :=
    append_nil _
  exact (run_framed (fun l _ => l.framed) conncallback_waits
    (forall_mem_singleton.mpr conncallback_hello) 0 (hevents.trans hlines.symm)).2 n hn

end UniClientGen

namespace UniConfDaemonConn

open UniClientConn

section BulkSet

variable {σ : Type} {gen : IUniConfGen σ} {depth : Nat} {s : σ} {pairs : List UniConfPair}
  {events : List Event} {n : Nat}

theorem setv_tree (hpairs : ∀ pair ∈ pairs, Sendable pair)
    (hevents : delivered events = UniClientGen.setv 19 pairs) (hn : pairs.length < n) :
    (run (execute gen depth) ({}, s, []) (events ++ replicate n .poll)).2.1 = s := by
  obtain ⟨ls, hlines, hlen, hsetv⟩ := setv_lines hpairs
  have hquit : ∀ l ∈ ls, l.command ≠ .REQ_QUIT := by
    intro l hl
    rw [hsetv l hl]
    decide
  rw [execute_lines gen depth hquit s (hevents.trans hlines.symm) (by omega)]
  exact foldl_setv gen depth hsetv (s, [])

theorem set_tree (hpairs : ∀ pair ∈ pairs, Sendable pair) (hevents : delivered events =
      pairs.flatMap fun pair => UniClientGen.set pair.key pair.value) (hn : pairs.length ≤ n) :
    (run (execute gen depth) ({}, s, []) (events ++ replicate n .poll)).2.1 =
      pairs.foldl (told gen depth) s := by
  obtain ⟨ls, hlines, hlen, hquit, hfold⟩ := set_lines gen depth hpairs
  rw [execute_lines gen depth hquit s (hevents.trans hlines.symm) (by omega)]
  exact hfold (s, [])

end BulkSet

/-- A client that has read the daemon's greeting sends a bulk set as `setv`, which changes
nothing in the daemon's tree. That is what the calls of `set` do exactly if the tree after them
is the tree before them. -/
theorem setv_iff {σ : Type} (gen : IUniConfGen σ) (depth : Nat) (s : σ) (pairs : List UniConfPair)
    (hpairs : ∀ pair ∈ pairs, Sendable pair) (greeting bulk single : List Event) {k m n : Nat}
    (hgreeting : delivered greeting = hello) (hk : 1 ≤ k)
    (hbulk : delivered bulk = UniClientGen.setv
      (run UniClientGen.conncallback ({}, 0) (greeting ++ List.replicate k .poll)).2 pairs)
    (hm : pairs.length < m) (hsingle : delivered single =
      pairs.flatMap fun pair => UniClientGen.set pair.key pair.value) (hn : pairs.length ≤ n) :
    let tree := fun events => (run (execute gen depth) ({}, s, []) events).2.1
    tree (bulk ++ replicate m .poll) = s ∧
      (tree (bulk ++ replicate m .poll) = tree (single ++ replicate n .poll) ↔
        pairs.foldl (told gen depth) s = s) := by
  intro tree
  rw [UniClientGen.version_hello hgreeting hk] at hbulk
  have hsetv : tree (bulk ++ replicate m .poll) = s := setv_tree hpairs hbulk hm
  have hset : tree (single ++ replicate n .poll) = pairs.foldl (told gen depth) s :=
    set_tree hpairs hsingle hn
  rw [hsetv, hset]
  exact ⟨rfl, eq_comm⟩

/-- The pairs of `a` and `1`, and of `b` and `2`, are sent to a daemon that has these values. -/
theorem setv_iff_stored :
    let a : ValidKey := ⟨[bytes "a"], by decide, by decide⟩
    let b : ValidKey := ⟨[bytes "b"], by decide, by decide⟩
    let stored := ((UniTempGen.empty.set a (some (bytes "1"))).1.set b (some (bytes "2"))).1
    let tree := fun events => (run (execute UniTempGen.gen 1) ({}, stored, []) events).2.1
    tree ([.deliver (bytes "setv a 1\nsetv b"), .poll, .deliver (bytes " 2\nsetv\n")] ++
        replicate 3 .poll) =
      tree ([.deliver (bytes "set a 1\nset"), .deliver (bytes " b 2\n")] ++ replicate 2 .poll) := by
  intro a b stored tree
  have hhello : delivered [.deliver hello] = hello := append_nil _
  have hversion := UniClientGen.version_hello hhello (n := 1) (le_refl _)
  refine (setv_iff UniTempGen.gen 1 stored [⟨a, some (bytes "1")⟩, ⟨b, some (bytes "2")⟩] ?_
    [.deliver hello] [.deliver (bytes "setv a 1\nsetv b"), .poll, .deliver (bytes " 2\nsetv\n")]
    [.deliver (bytes "set a 1\nset"), .deliver (bytes " b 2\n")] (k := 1) (m := 3) (n := 2)
    hhello (le_refl _) ?_ (by decide) ?_ (by decide)).2.mpr ?_
  · intro pair hpair
    rcases mem_pair.mp hpair with rfl | rfl <;> exact ⟨by decide, by decide⟩
  · rw [hversion]
    decide +kernel
  · decide +kernel
  · rfl

/-- In an empty tree the client sets `a` to `1`: with `setv` the tree stays empty. -/
theorem setv_fails :
    let pairs : List UniConfPair := [⟨⟨[bytes "a"], by decide, by decide⟩, some (bytes "1")⟩]
    let tree := fun events =>
      (run (execute UniTempGen.gen 1) ({}, UniTempGen.empty, []) events).2.1
    let bulk := UniClientGen.setv
      (run UniClientGen.conncallback ({}, 0) ([.deliver hello] ++ replicate 1 .poll)).2 pairs
    let single := pairs.flatMap fun pair => UniClientGen.set pair.key pair.value
    (tree ([.deliver bulk] ++ replicate 2 .poll)).get [bytes "a"] = none ∧
      (tree ([.deliver single] ++ replicate 1 .poll)).get [bytes "a"] = some (bytes "1") := by
  intro pairs tree bulk single
  have hpairs : ∀ pair ∈ pairs, Sendable pair :=
    forall_mem_singleton.mpr ⟨by decide, by decide⟩
  have hdelivered : ∀ chunk, delivered [.deliver chunk] = chunk := fun chunk => append_nil chunk
  have hversion := UniClientGen.version_hello (hdelivered hello) (n := 1) (le_refl _)
  have hbulk : delivered [.deliver bulk] = UniClientGen.setv 19 pairs := by
    rw [hdelivered, ← hversion]
  have hsetv : tree ([.deliver bulk] ++ replicate 2 .poll) = UniTempGen.empty :=
    setv_tree hpairs hbulk (by decide)
  have hset : tree ([.deliver single] ++ replicate 1 .poll) =
      pairs.foldl (told UniTempGen.gen 1) UniTempGen.empty :=
    set_tree hpairs (hdelivered single) (by decide)
  rw [hsetv, hset]
  exact ⟨rfl, by decide +kernel⟩

end UniConfDaemonConn

end WvStreams
