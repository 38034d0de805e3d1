import WvStreams.Strings.StringMask

/-!
# Tcl-style strings and lists

`wvtclEscape` writes a string so that it can be an element of a list, `wvtclGetword` finds
the end of the first element of a list, and `wvtclUnescape` reads an element back.
-/

namespace WvStreams

open List

abbrev backslash : Byte := 92
abbrev lbrace : Byte := 123
abbrev rbrace : Byte := 125
abbrev quote : Byte := 34
abbrev newline : Byte := 10

@[simp] theorem lbrace_ne_backslash : lbrace ≠ backslash := by decide

@[simp] theorem rbrace_ne_backslash : rbrace ≠ backslash := by decide

@[simp] theorem rbrace_ne_lbrace : rbrace ≠ lbrace := by decide

def alwaysNasty (c : Byte) : Bool := c == lbrace || c == rbrace || c == backslash || c == quote

def nasty (nasties : WvStringMask) (c : Byte) : Bool := alwaysNasty c || nasties.set c

/-- `WVTCL_NASTY_SPACES`, and `WVTCL_SPLITCHARS` too. -/
def wvtclNastySpaces : WvStringMask := .ofString (some [32, 9, 10, 13])

def wvtclNastyNewlines : WvStringMask := .ofString (some [10, 13])

structure EscapeCount where
  backslashify : Bool := false
  inescape : Bool := false
  unprintables : Nat := 0
  bracecount : Int := 0

def EscapeCount.next (nasties : WvStringMask) (n : EscapeCount) (c : Byte) : EscapeCount :=
  let bracecount :=
    if !n.inescape && c == lbrace then n.bracecount + 1
    else if !n.inescape && c == rbrace then n.bracecount - 1
    else n.bracecount
  { backslashify := n.backslashify || decide (bracecount < 0)
    inescape := c == backslash && !n.inescape
    unprintables := if nasty nasties c then n.unprintables + 1 else n.unprintables
    bracecount := bracecount }

/-- `wvtcl_escape` of a string that is not null. -/
def wvtclEscapeStr (nasties : WvStringMask) (s : Str) : Str :=
  if s = [] then [lbrace, rbrace]
  else
    let n := s.foldl (EscapeCount.next nasties) {}
    -- if the braces aren't balanced, backslashify
    let backslashify := n.backslashify || n.bracecount != 0 || n.inescape
    if !backslashify && n.unprintables == 0 then s
    else if backslashify then
      s.flatMap fun c => if nasty nasties c then [backslash, c] else [c]
    else lbrace :: s ++ [rbrace]

def wvtclEscape (nasties : WvStringMask) (s : WvString) : Str :=
  s.elim [] (wvtclEscapeStr nasties)

def unescapeLoop (inescape : Bool) : Str → Str
  | [] => []
  | c :: s =>
    if c = backslash then
      if inescape then c :: unescapeLoop false s else unescapeLoop true s
    else c :: unescapeLoop false s

/-- `wvtcl_unescape` of a string that is not null. Of a lone quotation mark it skips two, so
that its loop starts behind its end and never gets there: no result. -/
def wvtclUnescape (s : Str) : Option Str :=
  if s.head? = some lbrace ∧ s.getLast? = some rbrace then some s.tail.dropLast
  else if s.head? = some quote ∧ s.getLast? = some quote then
    if s = [quote] then none else some (unescapeLoop false s.tail.dropLast)
  else some (unescapeLoop false s)

/-- Where the scanner of `wvtcl_getword` is. -/
structure WordState where
  inescape : Bool := false
  inquote : Bool := false
  incontinuation : Bool := false
  bracecount : Nat := 0

/-- Put characters that belong to the word before the rest of it. -/
def prependWord (s : Str) (w : Str × Str × WordState) : Str × Str × WordState := (s ++ w.1, w.2)

/-- The loop of `wvtcl_getword`: the word, what is left, and the state at the end. -/
def wordLoop (splitchars : WvStringMask) (st : WordState) : Str → Str × Str × WordState
  | [] => ([], [], st)
  | ch :: s =>
    let st := { st with incontinuation := false }
    if st.inescape then
      prependWord [ch]
        (wordLoop splitchars { st with incontinuation := ch == newline, inescape := false } s)
    else if ch = backslash then
      prependWord [ch] (wordLoop splitchars { st with inescape := true } s)
    else if st.bracecount = 0 ∧ st.inquote ∧ ch = quote then ([ch], s, st)
    else if st.bracecount = 0 ∧ ¬ st.inquote ∧ splitchars.set ch then ([], ch :: s, st)
    else
      let bracecount :=
        if st.inquote then st.bracecount
        else if ch = lbrace then st.bracecount + 1
        else if ch = rbrace then st.bracecount - 1
        else st.bracecount
      prependWord [ch] (wordLoop splitchars { st with bracecount := bracecount } s)

/-- From the first character that is no separator: an initial quotation mark is looked at
before the loop. -/
def wordScan (splitchars : WvStringMask) (c : Byte) (s : Str) : Str × Str × WordState :=
  if c = quote then prependWord [c] (wordLoop splitchars { inquote := true } s)
  else wordLoop splitchars {} (c :: s)

def unfinished (word : Str) (st : WordState) : Bool :=
  st.bracecount != 0 || word == [] || st.inquote || st.inescape || st.incontinuation

/-- The word, and the text behind it; `none` is `WVTCL_GETWORD_NONE`. -/
def wvtclGetword (splitchars : WvStringMask) (doUnescape : Bool) (s : Str) : Option (Str × Str) :=
  match s.dropWhile splitchars.set with
  | [] => none
  | c :: s =>
    let (word, rest, st) := wordScan splitchars c s
    if unfinished word st then none
    else (if doUnescape then wvtclUnescape word else some word).map fun w => (w, rest)

def cstr (s : Str) : Str := s.takeWhile (· ≠ 0)

def encodeLoop (nasties : WvStringMask) (first : Byte) : List WvString → Str
  | [] => []
  | [s] => wvtclEscape nasties s
  | s :: l => wvtclEscape nasties s ++ first :: encodeLoop nasties first l

def wvtclEncode (l : List WvString) (nasties splitchars : WvStringMask) : Str :=
  cstr (encodeLoop nasties splitchars.first l)

theorem wordLoop_step (splitchars : WvStringMask) (st : WordState) (ch : Byte) :
    (∃ st' : WordState,
      (∀ s, wordLoop splitchars st (ch :: s) = prependWord [ch] (wordLoop splitchars st' s)) ∧
      st'.inquote = st.inquote ∧
      (splitchars.set newline = true → ch = newline → ∀ word, unfinished word st' = true)) ∨
    (ch = quote ∧
      ∀ s, wordLoop splitchars st (ch :: s) = ([ch], s, { st with incontinuation := false })) ∨
    ∀ s, wordLoop splitchars st (ch :: s) = ([], ch :: s, { st with incontinuation := false }) := by
  by_cases hescape : st.inescape
  · refine Or.inl ⟨⟨false, st.inquote, ch == newline, st.bracecount⟩, ?_, rfl, ?_⟩
    · intro s
      rw [wordLoop, if_pos hescape]
    · rintro - rfl word
      simp [unfinished]
  · by_cases hb : ch = backslash
    · refine Or.inl ⟨⟨true, st.inquote, false, st.bracecount⟩, ?_, rfl, ?_⟩
      · intro s
        rw [wordLoop, if_neg hescape, if_pos hb]
      · rintro - rfl
        exact absurd hb (by decide)
    · by_cases hquote : st.bracecount = 0 ∧ st.inquote ∧ ch = quote
      · refine Or.inr (Or.inl ⟨hquote.2.2, fun s => ?_⟩)
        rw [wordLoop, if_neg hescape, if_neg hb, if_pos hquote]
      · by_cases hsplit : st.bracecount = 0 ∧ ¬ st.inquote ∧ splitchars.set ch
        · refine Or.inr (Or.inr fun s => ?_)
          rw [wordLoop, if_neg hescape, if_neg hb, if_neg hquote, if_pos hsplit]
        · let bracecount :=
            if st.inquote then st.bracecount
            else if ch = lbrace then st.bracecount + 1
            else if ch = rbrace then st.bracecount - 1
            else st.bracecount
          refine Or.inl ⟨⟨st.inescape, st.inquote, false, bracecount⟩, ?_, rfl, ?_⟩
          · intro s
            rw [wordLoop, if_neg hescape, if_neg hb, if_neg hquote, if_neg hsplit]
          · rintro hnl rfl word
            have hopen : st.inquote = true ∨ st.bracecount ≠ 0 := by
              by_contra hnot
              obtain ⟨hq, hbrace⟩ := not_or.mp hnot
              exact hsplit ⟨not_not.mp hbrace, hq, hnl⟩
            have hcount : bracecount = st.bracecount := by
              have hlbrace : newline ≠ lbrace := by decide
              have hrbrace : newline ≠ rbrace := by decide
              simp [bracecount, hlbrace, hrbrace]
            rcases hopen with hq | hbrace
            · simp [unfinished, hq]
            · simp [unfinished, hcount, hbrace]

theorem wordLoop_append (splitchars : WvStringMask) (st : WordState) (s : Str) :
    (wordLoop splitchars st s).1 ++ (wordLoop splitchars st s).2.1 = s := by
  induction s generalizing st with
  | nil => rfl
  | cons ch s ih =>
    rcases wordLoop_step splitchars st ch with ⟨st', hgo, -, -⟩ | ⟨-, hquote⟩ | hsplit
    · rw [hgo]
      exact congrArg (ch :: ·) (ih st')
    · rw [hquote]
      rfl
    · rw [hsplit]
      rfl

theorem wordLoop_inquote (splitchars : WvStringMask) (st : WordState) (s : Str) :
    (wordLoop splitchars st s).2.2.inquote = st.inquote := by
  induction s generalizing st with
  | nil => rfl
  | cons ch s ih =>
    rcases wordLoop_step splitchars st ch with ⟨st', hgo, hinquote, -⟩ | ⟨-, hquote⟩ | hsplit
    · rw [hgo, ← hinquote]
      exact ih st'
    · rw [hquote]
    · rw [hsplit]

theorem wordScan_append (splitchars : WvStringMask) (c : Byte) (s : Str) :
    (wordScan splitchars c s).1 ++ (wordScan splitchars c s).2.1 = c :: s := by
  unfold wordScan
  split
  · exact congrArg (c :: ·) (wordLoop_append splitchars _ s)
  · exact wordLoop_append splitchars {} (c :: s)

theorem wvtclGetword_length {splitchars : WvStringMask} {doUnescape : Bool} {s word rest : Str}
    (h : wvtclGetword splitchars doUnescape s = some (word, rest)) : rest.length < s.length := by
  have hdrop : (s.dropWhile splitchars.set).length ≤ s.length :=
    (dropWhile_suffix splitchars.set).length_le
  unfold wvtclGetword at h
  cases hs : s.dropWhile splitchars.set with
  | nil => simp [hs] at h
  | cons c t =>
    have hlen := congrArg length (wordScan_append splitchars c t)
    rw [hs] at hdrop
    simp only [hs] at h
    split at h
    · cases h
    · rename_i hfound
      have hword : (wordScan splitchars c t).1 ≠ [] := by
        intro hnil
        simp [unfinished, hnil] at hfound
      have hpos := length_pos_iff.mpr hword
      obtain ⟨w, -, hw⟩ := Option.map_eq_some_iff.mp h
      obtain ⟨-, rfl⟩ := Prod.mk.inj hw
      rw [length_append, length_cons] at hlen
      rw [length_cons] at hdrop
      show (wordScan splitchars c t).2.1.length < s.length
      omega

def wvtclDecode (splitchars : WvStringMask) (doUnescape : Bool) (s : Str) : List Str :=
  match _h : wvtclGetword splitchars doUnescape s with
  | none => []
  | some (word, rest) => word :: wvtclDecode splitchars doUnescape rest
termination_by s.length
decreasing_by exact wvtclGetword_length _h

end WvStreams
