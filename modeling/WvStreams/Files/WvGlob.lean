import WvStreams.Lib.Ere
import WvStreams.Strings.Integer

/-!
# `WvGlob`

`glob_to_regex` goes through the pattern with four states and calls itself for what is in braces. A
first call counts the characters that a second one writes.
-/

namespace WvStreams

open Lib Lib.Ere
open WvFastString (ofInt)

namespace WvGlob

def normal_quit_chars (_ : Byte) : Bool := false

def brace_quit_chars (c : Byte) : Bool := c = 44 || c = 125

inductive State where
  | NORMAL
  | BACKSLASH
  | BRACKET
  | BRACKET_FIRST

/-- What was written to `dst`, which is null in the first call, and the number of characters. -/
structure Out where
  dst : Option Str
  dst_used : Nat

namespace Out

def puts (out : Out) (s : Str) : Out := ⟨out.dst.map (· ++ s), out.dst_used + s.length⟩

/-- `dst? &dst[dst_used] : NULL`, where nothing is written yet. -/
def sub (out : Out) : Out := ⟨out.dst.map fun _ => [], 0⟩

def append (out sub : Out) : Out :=
  ⟨out.dst.bind fun s => sub.dst.map (s ++ ·), out.dst_used + sub.dst_used⟩

end Out

def message (text : String) (index : Nat) : Str :=
  bytes text ++ bytes " (index " ++ ofInt .unsigned_long index ++ bytes ")"

/-- What is quoted: `^.$()|+`. -/
def quoted : Str := [94, 46, 36, 40, 41, 124, 43]

/-- What stays quoted: these, and `[{*?\`. -/
def backslashed : Str := quoted ++ [91, 123, 42, 63, 92]

mutual

def loop (quit_chars : Byte → Bool) (state : State) (src : Str) (src_used : Nat) (out : Out) :
    Except Str (Nat × Out) :=
  match src with
  | [] =>
    match state with
    | .BRACKET | .BRACKET_FIRST => .error (message "Unfinished bracket expression" src_used)
    | .BACKSLASH => .error (message "Unfinished backslash expression" src_used)
    | .NORMAL => .ok (src_used, out)
  | c :: rest =>
    let next (state : State) (s : Str) := loop quit_chars state rest (src_used + 1) (out.puts s)
    match state with
    | .NORMAL =>
      if quit_chars c then .ok (src_used, out)
      else if c = 92 then next .BACKSLASH []
      else if c = 91 then
        -- get rid of degenerate case
        if rest.take 2 = [94, 93] then
          loop quit_chars .NORMAL (rest.drop 2) (src_used + 3) (out.puts [92, 94])
        else next .BRACKET_FIRST [40]
      else if c = 42 then next .NORMAL (bytes "([^/]*)")
      else if c = 63 then next .NORMAL (bytes "([^/])")
      else if c = 123 then
        match braces rest (src_used + 1) (out.puts [40]) with
        | .error errstr => .error errstr
        | .ok (used, out) =>
          loop quit_chars .NORMAL (rest.drop (used + 1)) (src_used + 1 + used + 1) (out.puts [41])
      else if c ∈ quoted then next .NORMAL [92, c]
      else next .NORMAL [c]
    | .BACKSLASH => next .NORMAL (if c ∈ backslashed then [92, c] else [c])
    | .BRACKET_FIRST =>
      if c = 33 then next .BRACKET [91, 94]
      else if c = 94 then next .BRACKET [92, 94, 124, 91]
      else if c = 47 then .error (message "Slash not allowed in bracket expression" src_used)
      else next .BRACKET [91, c]
    | .BRACKET =>
      if c = 93 then next .NORMAL [93, 41]
      else if c = 47 then .error (message "Slash not allowed in bracket expression" src_used)
      else next .BRACKET [c]
termination_by (src.length, 0)
decreasing_by
  all_goals
    simp only [List.length_drop, List.length_cons, Prod.lex_def]
    omega

/-- The loop for braces, with the number of characters up to the closing one. -/
def braces (src : Str) (src_used : Nat) (out : Out) : Except Str (Nat × Out) :=
  match loop brace_quit_chars .NORMAL src 0 out.sub with
  | .error errstr => .error errstr
  | .ok (sub_src_used, sub) =>
    let out := out.append sub
    match _h : src.drop sub_src_used with
    | 125 :: _ => .ok (sub_src_used, out)
    | 44 :: rest =>
      match braces rest (src_used + sub_src_used + 1) (out.puts [124]) with
      | .error errstr => .error errstr
      | .ok (used, out) => .ok (sub_src_used + 1 + used, out)
    | _ => .error (message "Unfinished brace expression" (src_used + sub_src_used))
termination_by (src.length, 1)
decreasing_by
  · simp [Prod.lex_def]
  · have hlength := congrArg List.length _h
    rw [List.length_drop, List.length_cons] at hlength
    simp only [Prod.lex_def]
    omega

end

/-- The regular expression, or what is wrong; none if the second call writes more than the first one
has counted. -/
def glob_to_regex (glob : WvString) : Option (Except Str Str) :=
  match glob with
  | none => some (.error (bytes "Glob is NULL"))
  | some glob =>
    match loop normal_quit_chars .NORMAL glob 0 ⟨none, 0⟩ with
    | .error errstr => some (.error errstr)
    | .ok (_, counted) =>
      match loop normal_quit_chars .NORMAL glob 0 ⟨some [], 0⟩ with
      | .error errstr => some (.error errstr)
      | .ok (_, result) =>
        if result.dst_used ≤ counted.dst_used then some (.ok (94 :: result.dst.getD [] ++ [36]))
        else none

end WvGlob

end WvStreams
