import WvStreams.UniConf.Wire.Framing

/-!
# The round trip of messages

The line of a message is always found as it was written, but its arguments are a Tcl list, and
the last one is lost if it is left open at the end of the line (`roundtrip_iff`).
-/

namespace WvStreams

open List

namespace UniClientConn

/-- A command with a key and a value, or with a key alone if the value is null. -/
structure Message where
  command : Command
  key : CString
  value : Option CString

namespace Message

def args (m : Message) : List CString := m.key :: m.value.toList

/-- The line of `writecmd`, whose payload is that of `writevalue`. -/
def write (m : Message) : Str :=
  writecmd m.command (some
    (match m.value with
    | none => escape (some m.key.val)
    | some value => spacecat (escape (some m.key.val)) (escape (some value.val))))

def payload (m : Message) : Str := encodeLoop wvtclNastySpaces 32 (m.args.map fun s => some s.val)

def sent (m : Message) : Received × List Str := (.command m.command, m.args.map Subtype.val)

def found (m : Message) : Received × List Str :=
  (.command m.command, wvtclDecode wvtclNastySpaces true (32 :: m.payload))

theorem write_eq (m : Message) : m.write = writecmd m.command (some m.payload) := by
  obtain ⟨command, key, value⟩ := m
  cases value with
  | none => rfl
  | some value => rfl

end Message

def readargs (c : UniClientConn) : List Str × UniClientConn :=
  match _h : wvtclGetword wvtclNastySpaces true c.payloadbuf with
  | none => ([], c)
  | some (word, rest) =>
    let (args, c) := readargs { c with payloadbuf := rest }
    (word :: args, c)
termination_by c.payloadbuf.length
decreasing_by exact wvtclGetword_length _h

def receive (s : UniClientConn × List (Received × List Str)) :
    UniClientConn × List (Received × List Str) :=
  match s.1.readcmd with
  | (.NONE, _, c) => (c, s.2)
  | (cmd, _, c) => (c.readargs.2, s.2 ++ [(cmd, c.readargs.1)])

theorem recognizable {splitchars : WvStringMask} (hl : splitchars.set lbrace = false)
    (hb : splitchars.set backslash = false) (nasties : WvStringMask) (s : Str) :
    Recognizable nasties splitchars s :=
  ⟨fun _ => hl, fun _ _ => hb⟩

theorem passes_payload (l : List CString) :
    Passes wvtclNastyNewlines (encodeLoop wvtclNastySpaces 32 (l.map fun s => some s.val)) := by
  have hsplit : ∀ c, wvtclNastyNewlines.set c = true → wvtclNastySpaces.set c = true := by
    intro c hc
    have hcases : c = 10 ∨ c = 13 := by
      simpa [wvtclNastyNewlines, WvStringMask.ofString] using hc
    rcases hcases with rfl | rfl <;> decide
  have hescape : ∀ s : CString, Passes wvtclNastyNewlines (wvtclEscape wvtclNastySpaces (some s.val)) := by
    intro s
    rw [wvtclEscape_written hsplit (recognizable (by decide) (by decide) _ s.val)]
    exact passes_written _ (escapeForm_isQuoted _ _)
  induction l with
  | nil => exact fun _ _ => rfl
  | cons s l ih =>
    cases l with
    | nil => exact hescape s
    | cons s' l =>
      have hspace : Passes wvtclNastyNewlines [32] := passes_plain (by decide)
      exact (hescape s).append (hspace.append ih)

def Message.line (m : Message) : CommandLine where
  command := m.command
  msg := some m.payload
  passes := by
    intro s hs
    obtain rfl := Option.some.inj hs
    exact passes_payload m.args
  nul := by
    intro s hs
    obtain rfl := Option.some.inj hs
    exact nul_not_mem_encodeLoop (by decide) m.args

theorem readargs_eq (c : UniClientConn) :
    c.readargs.1 = wvtclDecode wvtclNastySpaces true c.payloadbuf ∧
      ∃ payloadbuf, c.readargs.2 = { c with payloadbuf := payloadbuf } := by
  induction hn : c.payloadbuf.length using Nat.strong_induction_on generalizing c with
  | _ n ih =>
    subst hn
    rw [readargs]
    split
    · rename_i h
      rw [wvtclDecode_of_none h]
      exact ⟨rfl, c.payloadbuf, rfl⟩
    · rename_i word rest h
      obtain ⟨hargs, payloadbuf, hconn⟩ :=
        ih rest.length (wvtclGetword_length h) { c with payloadbuf := rest } rfl
      rw [wvtclDecode_of_some h]
      exact ⟨congrArg (word :: ·) hargs, payloadbuf, hconn⟩

theorem receive_waits : Waits receive := by
  intro s h
  rw [receive, readcmd_of_none h]

theorem receive_handles (m : Message) :
    Handles receive (fun m => m.line.text) (fun read m => read ++ [m.found]) m := by
  intro s h
  obtain ⟨hargs, payloadbuf, hconn⟩ :=
    readargs_eq { s.1.readmsg.2 with payloadbuf := 32 :: m.payload }
  have hread : s.1.readcmd = (.command m.command, some m.command.name,
      { s.1.readmsg.2 with payloadbuf := 32 :: m.payload }) := CommandLine.readcmd h
  rw [receive, hread]
  dsimp only
  rw [hargs]
  exact ⟨rfl, payloadbuf, hconn⟩

theorem Message.found_iff (m : Message) : m.found = m.sent ↔ ¬ Open wvtclNastySpaces m.args := by
  have hspace : ∀ c ∈ ([32] : Str), wvtclNastySpaces.set c = true := by decide
  have hfind : ∀ s ∈ m.args, Findable wvtclNastySpaces wvtclNastySpaces s.val := fun s _ =>
    ⟨fun h => absurd h.2 (by decide), fun _ h => absurd h (by decide)⟩
  have hdecode := decode_encodeLoop_iff (fun _ h => h) hfind
    (Or.inl (show wvtclNastySpaces.set 32 = true by decide)) hspace
  have hsep : ∀ s ∈ m.args.dropLast, wvtclNastySpaces.set 32 = true ∧
      ((32 : Byte) = backslash → Skipped wvtclNastySpaces wvtclNastySpaces s.val) :=
    fun _ _ => ⟨by decide, fun h => absurd h (by decide)⟩
  refine Iff.trans ?_ (hdecode.trans (and_iff_right hsep))
  simp [Message.found, Message.sent, Message.payload]

theorem lines_write (ms : List Message) :
    lines (fun m : Message => m.line.text) ms = ms.flatMap Message.write := by
  have hwrite : Message.write = fun m => m.line.text ++ [newline] := by
    funext m
    rw [m.write_eq]
    exact m.line.writecmd_eq
  rw [lines, hwrite]

theorem receive_lines (ms : List Message) (events : List Event)
    (hevents : delivered events = ms.flatMap Message.write) {n : Nat} (hn : ms.length ≤ n) :
    (run receive ({}, []) (events ++ replicate n .poll)).2 = ms.map Message.found := by
  rw [← lines_write] at hevents
  obtain ⟨-, hall⟩ := run_framed (fun m _ => m.line.framed) receive_waits
    (fun m _ => receive_handles m) [] hevents
  rw [hall n hn, foldl_append_eq_append, nil_append, ← flatMap_def]
  exact map_eq_flatMap.symm

/-- What is read is what was sent, if and only if no message ends in an argument with unmatched
braces and a newline at its end. -/
theorem roundtrip_iff (ms : List Message) (events : List Event)
    (hevents : delivered events = ms.flatMap Message.write) {n : Nat} (hn : ms.length ≤ n) :
    (run receive ({}, []) (events ++ replicate n .poll)).2 = ms.map Message.sent ↔
      ∀ m ∈ ms, ¬ Open wvtclNastySpaces m.args := by
  rw [receive_lines ms events hevents hn, map_inj_left]
  exact forall₂_congr fun m _ => m.found_iff

/-- A value of two lines, cut within its first line. -/
theorem roundtrip_two_lines :
    (run receive ({}, []) [.deliver (bytes "VAL k \x7ba"), .poll, .deliver (bytes "\nb\x7d\n"), .poll]).2 =
      [(.command .PART_VALUE, [bytes "k", bytes "a\nb"])] :=
  (roundtrip_iff [⟨.PART_VALUE, ⟨bytes "k", by decide⟩, some ⟨bytes "a\nb", by decide⟩⟩]
    [.deliver (bytes "VAL k \x7ba"), .poll, .deliver (bytes "\nb\x7d\n")] (by decide) (n := 1)
    (by decide)).mpr (by simp only [Open]; decide)

/-- The value of a closing brace and a newline is written, and read as no value at all. -/
theorem roundtrip_fails :
    let m : Message := ⟨.PART_VALUE, ⟨bytes "a", by decide⟩, some ⟨bytes "\x7d\n", by decide⟩⟩
    m.write = bytes "VAL a \\\x7d\\\n\n" ∧
      m.sent = (.command .PART_VALUE, [bytes "a", bytes "\x7d\n"]) ∧
      (run receive ({}, []) [.deliver m.write, .poll]).2 = [(.command .PART_VALUE, [bytes "a"])] := by
  intro m
  refine ⟨by decide, by decide, ?_⟩
  have hread := receive_lines [m] [.deliver m.write] (by decide) (n := 1) (by decide)
  have hfirst : wvtclGetword wvtclNastySpaces true (32 :: m.payload) =
      some (bytes "a", bytes " \\\x7d\\\n") := by decide
  have hsecond : wvtclGetword wvtclNastySpaces true (bytes " \\\x7d\\\n") = none := by decide
  have hfound : m.found = (.command .PART_VALUE, [bytes "a"]) := by
    rw [Message.found, wvtclDecode_of_some hfirst, wvtclDecode_of_none hsecond]
  rw [map_singleton, hfound] at hread
  exact hread

end UniClientConn

end WvStreams
