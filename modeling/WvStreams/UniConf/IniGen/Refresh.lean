import WvStreams.Strings.StrUtils
import WvStreams.Strings.TclScan
import WvStreams.UniConf.TempGen

/-!
# `UniIniGen::refresh`

A file is read line by line into a buffer, and after each line the words that are complete are
taken out of the buffer. It makes no difference if the whole text is in the buffer at once
(`readLines_eq`).
-/

namespace WvStreams

open Option

namespace UniIniGen

/-- `newgen` and `section`. -/
structure Loading where
  newgen : UniTempGen
  section_ : UniConfKey

/-- What `refresh` starts with: a root with an empty value. -/
def start : Loading := ⟨(UniTempGen.empty.set [] (some [])).1, []⟩

/-- A key and a value; a malformed line changes nothing. -/
def readEntry (st : Loading) (word : Str) : Option Loading :=
  match wvtclGetword (.ofString (some [61])) false word with
  | none => some st
  | some (name, line) =>
    if line = [] then some st
    else do
      let name ← wvtclUnescape (trimString name)
      if name = [] then return st
      -- `line` begins with the equals sign
      let value ← wvtclUnescape (trimString line.tail)
      return ⟨(st.newgen.set (UniConfKey.prepend (UniConfKey.ofString name) st.section_)
        (some value)).1, st.section_⟩

/-- The body of the loop over the words: a blank line, a comment, a section or an entry. It
has no result if `wvtcl_unescape` has none. -/
def readWord (st : Loading) (word : Str) : Option Loading :=
  let str := trimString word
  if str = [] then some st
  else if str.head? = some 35 then some st
  else if str.head? = some 91 ∧ str.getLast? = some 93 then do
    let name ← wvtclUnescape (trimString str.tail.dropLast)
    return ⟨st.newgen, UniConfKey.ofString name⟩
  -- `trim_string` has taken the blanks off the end of `word`
  else readEntry st (trimEnd word)

/-- The loop over the words in the buffer, and what it leaves there. -/
def readWords (st : Loading) (buf : Str) : Option (Loading × Str) :=
  match _h : wvtclGetword wvtclNastyNewlines false buf with
  | none => some (st, buf)
  | some (word, rest) =>
    match readWord st word with
    | none => none
    | some st => readWords st rest
termination_by buf.length
decreasing_by exact wvtclGetword_length _h

def readLines (st : Loading) (buf : Str) : List Str → Option (Loading × Str)
  | [] => some (st, buf)
  | line :: lines =>
    match readWords st (buf ++ line ++ [newline]) with
    | none => none
    | some (st, buf) => readLines st buf lines

variable {buf : Str} {st : Loading}

theorem readWords_of_none (h : wvtclGetword wvtclNastyNewlines false buf = none) :
    readWords st buf = some (st, buf) := by
  rw [readWords]
  split
  · rfl
  · rename_i h'
    rw [h] at h'
    cases h'

theorem readWords_of_some {word rest : Str}
    (h : wvtclGetword wvtclNastyNewlines false buf = some (word, rest)) :
    readWords st buf = (readWord st word).bind fun st => readWords st rest := by
  rw [readWords]
  split
  · rename_i h'
    rw [h] at h'
    cases h'
  · rename_i h'
    rw [h] at h'
    cases h'
    cases readWord st word <;> rfl

theorem readWords_length {st' : Loading} {buf' : Str} (h : readWords st buf = some (st', buf')) :
    buf'.length ≤ buf.length := by
  induction hn : buf.length using Nat.strong_induction_on generalizing st buf with
  | _ n ih =>
    subst hn
    cases hword : wvtclGetword wvtclNastyNewlines false buf with
    | none =>
      rw [readWords_of_none hword] at h
      obtain ⟨-, rfl⟩ := Prod.mk.inj (some.inj h)
      exact Nat.le_refl _
    | some r =>
      obtain ⟨word, rest⟩ := r
      have hlen := wvtclGetword_length hword
      rw [readWords_of_some hword] at h
      obtain ⟨st₁, -, h⟩ := bind_eq_some_iff.mp h
      have hrest := ih rest.length hlen h rfl
      omega

/-- At the end of the file, what is left is read again without its first line until nothing is
left. -/
def skipLines (st : Loading) (buf : Str) : Option UniTempGen :=
  if _hbuf : buf = [] then some st.newgen
  else
    match _h : readWords st (buf.dropWhile (· ≠ newline)).tail with
    | none => none
    | some (st, left) => skipLines st left
termination_by buf.length
decreasing_by
  have hread := readWords_length _h
  have hdrop := (List.dropWhile_suffix (fun c => decide (c ≠ newline)) (l := buf)).length_le
  have hpos := List.length_pos_iff.mpr _hbuf
  rw [List.length_tail] at hread
  omega

/-- The lines that `blocking_getline` returns of a file. -/
def fileLines : Str → List Str
  | [] => []
  | c :: s =>
    if c = newline then [] :: fileLines s
    else
      match fileLines s with
      | [] => [[c]]
      | line :: lines => (c :: line) :: lines

/-- The generator that `refresh` makes of a file's text. -/
def refresh (text : Str) : Option UniTempGen :=
  (readLines start [] (fileLines text)).bind fun r => skipLines r.1 r.2

theorem flatMap_fileLines {text : Str} (h : Lined text) :
    (fileLines text).flatMap (· ++ [newline]) = text := by
  induction text with
  | nil => rfl
  | cons c s ih =>
    have hrest := ih (Lined.suffix (s := [c]) h)
    rw [fileLines]
    split
    · rename_i hc
      rw [List.flatMap_cons, hrest, hc]
      rfl
    · rename_i hc
      split
      · rename_i hnil
        rw [hnil] at hrest
        obtain rfl : s = [] := hrest.symm
        rcases h with h | h
        · cases h
        · exact absurd (some.inj h) hc
      · rename_i line lines hlines
        rw [hlines] at hrest
        rw [List.flatMap_cons] at hrest ⊢
        rw [List.cons_append, List.cons_append, hrest]

theorem readWords_append (st : Loading) (hbuf : Lined buf) (more : Str) :
    readWords st (buf ++ more) =
      (readWords st buf).bind fun r => readWords r.1 (r.2 ++ more) := by
  induction hn : buf.length using Nat.strong_induction_on generalizing st buf with
  | _ n ih =>
    subst hn
    cases hword : wvtclGetword wvtclNastyNewlines false buf with
    | none =>
      rw [readWords_of_none hword]
      rfl
    | some r =>
      obtain ⟨word, rest⟩ := r
      obtain ⟨hne, hlined⟩ := wvtclGetword_lined newline_splits hword hbuf
      rw [readWords_of_some hword, readWords_of_some (wvtclGetword_more hword hne more)]
      cases readWord st word with
      | none => rfl
      | some st' => exact ih rest.length (wvtclGetword_length hword) st' hlined rfl

theorem readWords_left {st' : Loading} {buf' : Str} (h : readWords st buf = some (st', buf'))
    (hbuf : Lined buf) : wvtclGetword wvtclNastyNewlines false buf' = none ∧ Lined buf' := by
  induction hn : buf.length using Nat.strong_induction_on generalizing st buf with
  | _ n ih =>
    subst hn
    cases hword : wvtclGetword wvtclNastyNewlines false buf with
    | none =>
      rw [readWords_of_none hword] at h
      obtain ⟨-, rfl⟩ := Prod.mk.inj (some.inj h)
      exact ⟨hword, hbuf⟩
    | some r =>
      obtain ⟨word, rest⟩ := r
      rw [readWords_of_some hword] at h
      obtain ⟨st₁, -, h⟩ := bind_eq_some_iff.mp h
      exact ih rest.length (wvtclGetword_length hword) h
        (wvtclGetword_lined newline_splits hword hbuf).2 rfl

theorem readLines_append (st : Loading) (hbuf : Lined buf)
    (hnone : wvtclGetword wvtclNastyNewlines false buf = none) (lines : List Str) :
    readLines st buf lines = readWords st (buf ++ lines.flatMap (· ++ [newline])) := by
  induction lines generalizing st buf with
  | nil => rw [List.flatMap_nil, List.append_nil, readWords_of_none hnone, readLines]
  | cons line lines ih =>
    have hlined : Lined (buf ++ line ++ [newline]) := lined_concat (buf ++ line)
    have htext : buf ++ (line :: lines).flatMap (· ++ [newline]) =
        buf ++ line ++ [newline] ++ lines.flatMap (· ++ [newline]) := by simp
    rw [htext, readWords_append st hlined, readLines]
    cases hread : readWords st (buf ++ line ++ [newline]) with
    | none => rfl
    | some r =>
      obtain ⟨st', buf'⟩ := r
      obtain ⟨hnone', hlined'⟩ := readWords_left hread hlined
      exact ih st' hlined' hnone'

theorem readLines_eq (st : Loading) {text : Str} (h : Lined text) :
    readLines st [] (fileLines text) = readWords st text := by
  rw [readLines_append st (Or.inl rfl) rfl, flatMap_fileLines h, List.nil_append]

section Words

open List

end Words

end UniIniGen

end WvStreams
