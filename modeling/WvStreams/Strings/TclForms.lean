import Mathlib.Data.List.TakeWhile
import WvStreams.Strings.TclString

/-!
# The forms of a list element

`wvtclstring.h` documents four ways of writing an element of a list. `decode_written_iff` says
for which texts that are put together from such elements `wvtclDecode` finds the elements: a
quotation mark at the start of a word is never forgotten by the scanner, so that no quoted
element is found, and a word is not finished as long as it may continue on another line.
-/

namespace WvStreams

open List

/-- Outside escapes the braces match, and the text does not end within an escape; `n` braces
have been opened before. -/
def braces (inescape : Bool) (n : Nat) : Str → Bool
  | [] => !inescape && n == 0
  | c :: s =>
    if inescape then braces false n s
    else if c = backslash then braces true n s
    else if c = lbrace then braces false (n + 1) s
    else if c = rbrace then 0 < n && braces false (n - 1) s
    else braces false n s

/-- Characters, some of which are written with a backslash. -/
abbrev Spelling := List (Bool × Byte)

namespace Spelling

def text (cs : Spelling) : Str := cs.flatMap fun c => if c.1 then [backslash, c.2] else [c.2]

def value (cs : Spelling) : Str := cs.map Prod.snd

theorem text_escaped (c : Byte) (cs : Spelling) :
    text ((true, c) :: cs) = backslash :: c :: cs.text := rfl

theorem text_plain (c : Byte) (cs : Spelling) : text ((false, c) :: cs) = c :: cs.text := rfl

def plain (s : Str) : Spelling := s.map (Prod.mk false)

theorem plain_text (s : Str) : (plain s).text = s := by
  induction s with
  | nil => rfl
  | cons c s ih => exact congrArg (c :: ·) ih

theorem plain_value (s : Str) : (plain s).value = s := by simp [plain, value]

theorem plain_not_continued (s : Str) : ((plain s).getLast? == some (true, newline)) = false := by
  cases h : s.getLast? <;> simp [plain, h]

end Spelling

/-- An element as it is written. -/
inductive Form where
  | bare (word : Str)
  | braced (s : Str)
  | backslashed (cs : Spelling)
  | quoted (cs : Spelling)

namespace Form

def text : Form → Str
  | bare word => word
  | braced s => lbrace :: s ++ [rbrace]
  | backslashed cs => cs.text
  | quoted cs => quote :: cs.text ++ [quote]

def value : Form → Str
  | bare word => word
  | braced s => s
  | backslashed cs | quoted cs => cs.value

def isQuoted : Form → Bool
  | quoted _ => true
  | _ => false

/-- The element ends in a newline written with a backslash. -/
def continued : Form → Bool
  | backslashed cs => cs.getLast? == some (true, newline)
  | _ => false

def Fits (splitchars : WvStringMask) : Form → Prop
  | bare word => word ≠ [] ∧ ∀ c ∈ word, nasty splitchars c = false
  | braced s => braces false 0 s = true
  | backslashed cs => cs ≠ [] ∧ ∀ c ∈ cs, c.1 = false → nasty splitchars c.2 = false
  | quoted cs => ∀ c ∈ cs, c.1 = false → c.2 ≠ quote ∧ c.2 ≠ backslash

end Form

/-- An element that is written in a form, and does not begin with a split character. -/
structure Written (splitchars : WvStringMask) where
  form : Form
  fits : form.Fits splitchars
  starts : ∀ c ∈ form.text.head?, splitchars.set c = false

/-- Split characters between two elements. -/
structure Separator (splitchars : WvStringMask) where
  first : Byte
  more : Str
  split : ∀ c ∈ first :: more, splitchars.set c = true

/-- A list as it is written: split characters, elements with a separator after each, and an
element at the end of the text, if there is no separator. -/
structure Listing (splitchars : WvStringMask) where
  lead : Str
  split : ∀ c ∈ lead, splitchars.set c = true
  items : List (Written splitchars × Separator splitchars)
  last : Option (Written splitchars)

namespace Listing

variable {splitchars : WvStringMask}

def textOf (last : Option (Written splitchars)) :
    List (Written splitchars × Separator splitchars) → Str
  | [] => last.elim [] fun w => w.form.text
  | (w, sep) :: items => w.form.text ++ sep.first :: (sep.more ++ textOf last items)

def valuesOf (last : Option (Written splitchars))
    (items : List (Written splitchars × Separator splitchars)) : List Str :=
  items.map (fun i => i.1.form.value) ++ last.toList.map fun w => w.form.value

def text (l : Listing splitchars) : Str := l.lead ++ textOf l.last l.items

def values (l : Listing splitchars) : List Str := valuesOf l.last l.items

end Listing

/-! ## The scanner inside an element -/

section Scanner

variable (splitchars : WvStringMask)

theorem prependWord_prependWord (s t : Str) (w : Str × Str × WordState) :
    prependWord s (prependWord t w) = prependWord (s ++ t) w := by
  simp [prependWord]

theorem not_nasty {c : Byte} (h : nasty splitchars c = false) :
    c ≠ lbrace ∧ c ≠ rbrace ∧ c ≠ backslash ∧ c ≠ quote ∧ splitchars.set c = false := by
  simpa [nasty, alwaysNasty, and_assoc] using h

/-- The scanner takes it for a part of the word. -/
def InWord (c : Byte) : Prop := c ≠ lbrace ∧ c ≠ backslash ∧ splitchars.set c = false

theorem inWord_of_not_nasty {c : Byte} (h : nasty splitchars c = false) : InWord splitchars c := by
  obtain ⟨hl, -, hb, -, hsplit⟩ := not_nasty splitchars h
  exact ⟨hl, hb, hsplit⟩

theorem wordLoop_incontinuation (b : Bool) (c : Byte) (s : Str) :
    wordLoop splitchars { incontinuation := b } (c :: s) = wordLoop splitchars {} (c :: s) := rfl

theorem wordLoop_plain {c : Byte} (hc : InWord splitchars c) (s : Str) :
    wordLoop splitchars {} (c :: s) = prependWord [c] (wordLoop splitchars {} s) := by
  obtain ⟨hl, hb, hsplit⟩ := hc
  simp [wordLoop, hl, hb, hsplit]

theorem wordLoop_escaped (c : Byte) (s : Str) :
    wordLoop splitchars {} (backslash :: c :: s) =
      prependWord [backslash, c] (wordLoop splitchars { incontinuation := c == newline } s) := by
  simp [wordLoop, prependWord]

theorem wordLoop_split {c : Byte} (hc : splitchars.set c = true) (hb : c ≠ backslash) (s : Str) :
    wordLoop splitchars {} (c :: s) = ([], c :: s, {}) := by
  simp [wordLoop, hc, hb]

theorem wordLoop_backslashed (cs : Spelling)
    (h : ∀ c ∈ cs, c.1 = false → InWord splitchars c.2) (b : Bool) (t : Str) :
    wordLoop splitchars { incontinuation := b } (cs.text ++ t) =
      prependWord cs.text (wordLoop splitchars
        { incontinuation := if cs = [] then b else cs.getLast? == some (true, newline) } t) := by
  induction cs generalizing b with
  | nil => rfl
  | cons c cs ih =>
    have hrest := ih fun c hc => h c (mem_cons_of_mem _ hc)
    have hlast : ∀ b', b' = (some c == some (true, newline)) →
        (if cs = [] then b' else cs.getLast? == some (true, newline)) =
          ((c :: cs).getLast? == some (true, newline)) := by
      rintro b' rfl
      cases cs with
      | nil => rfl
      | cons d cs => rw [if_neg (cons_ne_nil d cs), getLast?_cons_cons]
    obtain ⟨escaped, c⟩ := c
    cases escaped with
    | true =>
      rw [Spelling.text_escaped, cons_append, cons_append, wordLoop_incontinuation,
        wordLoop_escaped, hrest, prependWord_prependWord, if_neg (cons_ne_nil _ cs),
        hlast _ (by simp)]
      rfl
    | false =>
      have hc := h (false, c) mem_cons_self rfl
      have hplain := hrest false
      rw [hlast false (by simp)] at hplain
      rw [Spelling.text_plain, cons_append, wordLoop_incontinuation,
        wordLoop_plain splitchars hc, if_neg (cons_ne_nil _ cs)]
      show prependWord [c] (wordLoop splitchars { incontinuation := false } (Spelling.text cs ++ t)) = _
      rw [hplain, prependWord_prependWord]
      rfl

theorem wordLoop_braces {inescape : Bool} {n : Nat} {s : Str} (h : braces inescape n s = true)
    (b : Bool) (t : Str) :
    wordLoop splitchars ⟨inescape, false, b, n + 1⟩ (s ++ rbrace :: t) =
      prependWord (s ++ [rbrace]) (wordLoop splitchars {} t) := by
  induction s generalizing inescape n b with
  | nil =>
    obtain ⟨rfl, rfl⟩ : inescape = false ∧ n = 0 := by simpa [braces] using h
    simp only [nil_append, wordLoop, Bool.false_eq_true, if_false, rbrace_ne_backslash,
      rbrace_ne_lbrace]
    rfl
  | cons c s ih =>
    have hcons : ∀ w, prependWord [c] (prependWord (s ++ [rbrace]) w) =
        prependWord (c :: s ++ [rbrace]) w := fun w => prependWord_prependWord _ _ w
    have hdepth : ∀ m : Nat, ¬ (m + 1 = 0 ∧ false = true ∧ c = quote) := by simp
    have hsplit : ∀ m : Nat, ¬ (m + 1 = 0 ∧ ¬ false = true ∧ splitchars.set c = true) := by simp
    unfold braces at h
    rw [cons_append, wordLoop]
    dsimp only
    cases inescape with
    | true =>
      rw [if_pos rfl] at h ⊢
      rw [ih h, hcons]
    | false =>
      rw [if_neg Bool.false_ne_true] at h ⊢
      by_cases hb : c = backslash
      · rw [if_pos hb] at h ⊢
        rw [ih h, hcons]
      · rw [if_neg hb] at h ⊢
        rw [if_neg (hdepth n), if_neg (hsplit n), if_neg Bool.false_ne_true]
        by_cases hl : c = lbrace
        · rw [if_pos hl] at h ⊢
          rw [ih h, hcons]
        · rw [if_neg hl] at h ⊢
          by_cases hr : c = rbrace
          · rw [if_pos hr] at h ⊢
            obtain ⟨hn, h⟩ : 0 < n ∧ braces false (n - 1) s = true := by simpa using h
            have hback : n + 1 - 1 = n - 1 + 1 := by omega
            rw [hback, ih h, hcons]
          · rw [if_neg hr] at h ⊢
            rw [ih h, hcons]

theorem wordLoop_braced {s : Str} (h : braces false 0 s = true)
    (hl : splitchars.set lbrace = false) (t : Str) :
    wordLoop splitchars {} (lbrace :: s ++ rbrace :: t) =
      prependWord (lbrace :: s ++ [rbrace]) (wordLoop splitchars {} t) := by
  have hopen : wordLoop splitchars {} (lbrace :: (s ++ rbrace :: t)) =
      prependWord [lbrace] (wordLoop splitchars ⟨false, false, false, 0 + 1⟩ (s ++ rbrace :: t)) := by
    rw [wordLoop, if_neg (by simp), if_neg lbrace_ne_backslash, if_neg (by simp),
      if_neg (by simp [hl]), if_neg (by simp), if_pos rfl]
  rw [cons_append, hopen, wordLoop_braces splitchars h, prependWord_prependWord]
  rfl

end Scanner

/-! ## Reading an element back -/

theorem unescapeLoop_plain {c : Byte} (hc : c ≠ backslash) (s : Str) :
    unescapeLoop false (c :: s) = c :: unescapeLoop false s := by
  rw [unescapeLoop, if_neg hc]

theorem unescapeLoop_escaped (c : Byte) (s : Str) :
    unescapeLoop false (backslash :: c :: s) = c :: unescapeLoop false s := by
  rw [unescapeLoop, if_pos rfl, if_neg Bool.false_ne_true, unescapeLoop, if_pos rfl, ite_self]

theorem unescapeLoop_bare {word : Str} (h : ∀ c ∈ word, c ≠ backslash) (t : Str) :
    unescapeLoop false (word ++ t) = word ++ unescapeLoop false t := by
  induction word with
  | nil => rfl
  | cons c word ih =>
    rw [cons_append, unescapeLoop_plain (h c mem_cons_self),
      ih fun c hc => h c (mem_cons_of_mem _ hc)]
    rfl

theorem unescapeLoop_spelling {cs : Spelling} (h : ∀ c ∈ cs, c.1 = false → c.2 ≠ backslash)
    (t : Str) : unescapeLoop false (cs.text ++ t) = cs.value ++ unescapeLoop false t := by
  induction cs with
  | nil => rfl
  | cons c cs ih =>
    have hrest := ih fun c hc => h c (mem_cons_of_mem _ hc)
    obtain ⟨escaped, c⟩ := c
    cases escaped with
    | true =>
      rw [Spelling.text_escaped, cons_append, cons_append, unescapeLoop_escaped, hrest]
      rfl
    | false =>
      rw [Spelling.text_plain, cons_append,
        unescapeLoop_plain (h (false, c) mem_cons_self rfl), hrest]
      rfl

theorem unescapeLoop_lbrace_ne (s t : Str) : unescapeLoop false (lbrace :: (s ++ t)) ≠ s := by
  induction s with
  | nil =>
    rw [unescapeLoop_plain lbrace_ne_backslash]
    exact cons_ne_nil _ _
  | cons c s ih =>
    rw [unescapeLoop_plain lbrace_ne_backslash]
    intro h
    obtain ⟨rfl, hs⟩ := cons.inj h
    exact ih hs

/-- More text, which does not end within an escape. -/
def Extends (z : Str) : Prop := ∃ f w, z = f :: w ∧ (f = backslash → w ≠ [])

theorem Extends.unescapeLoop_ne_nil {z : Str} (h : Extends z) : unescapeLoop false z ≠ [] := by
  obtain ⟨f, w, rfl, hw⟩ := h
  by_cases hf : f = backslash
  · obtain ⟨c, w, rfl⟩ := exists_cons_of_ne_nil (hw hf)
    rw [hf, unescapeLoop_escaped]
    exact cons_ne_nil _ _
  · rw [unescapeLoop_plain hf]
    exact cons_ne_nil _ _

theorem wvtclUnescape_of_head {c : Byte} (hl : c ≠ lbrace) (hq : c ≠ quote) (s : Str) :
    wvtclUnescape (c :: s) = some (unescapeLoop false (c :: s)) := by
  rw [wvtclUnescape, if_neg, if_neg]
  · rintro ⟨h, -⟩
    exact hq (Option.some.inj h)
  · rintro ⟨h, -⟩
    exact hl (Option.some.inj h)

theorem wvtclUnescape_braced (s : Str) : wvtclUnescape (lbrace :: s ++ [rbrace]) = some s := by
  have hlast : (lbrace :: s ++ [rbrace]).getLast? = some rbrace := getLast?_concat
  rw [wvtclUnescape, if_pos ⟨rfl, hlast⟩]
  simp

section Words

variable {splitchars : WvStringMask}

theorem Written.text_cons (w : Written splitchars) :
    ∃ c s, w.form.text = c :: s ∧ splitchars.set c = false ∧ (w.form.isQuoted = true → c = quote) ∧
      (w.form.isQuoted = false → c ≠ quote) := by
  obtain ⟨form, fits, starts⟩ := w
  have hhead : ∀ {c s}, form.text = c :: s → splitchars.set c = false := by
    intro c s h
    exact starts c (by simp [h])
  cases form with
  | bare word =>
    obtain ⟨c, s, rfl⟩ := exists_cons_of_ne_nil fits.1
    have hc := not_nasty splitchars (fits.2 c mem_cons_self)
    exact ⟨c, s, rfl, hhead rfl, nofun, fun _ => hc.2.2.2.1⟩
  | braced s => exact ⟨lbrace, s ++ [rbrace], rfl, hhead rfl, nofun, fun _ => by decide⟩
  | backslashed cs =>
    obtain ⟨hne, hplain⟩ := fits
    obtain ⟨⟨escaped, c⟩, cs, rfl⟩ := exists_cons_of_ne_nil hne
    cases escaped with
    | true =>
      exact ⟨backslash, c :: Spelling.text cs, rfl, hhead rfl, nofun, fun _ => by decide⟩
    | false =>
      have hc := not_nasty splitchars (hplain (false, c) mem_cons_self rfl)
      exact ⟨c, Spelling.text cs, rfl, hhead rfl, nofun, fun _ => hc.2.2.2.1⟩
  | quoted cs =>
    exact ⟨quote, Spelling.text cs ++ [quote], rfl, hhead rfl, fun _ => rfl, nofun⟩

theorem Written.text_ne_nil (w : Written splitchars) : w.form.text ≠ [] := by
  obtain ⟨c, s, htext, -⟩ := w.text_cons
  rw [htext]
  exact cons_ne_nil c s

/-- A text that is passed as a word or as the beginning of one, what it is read as, and that it
is read otherwise if more is taken for a part of it. -/
structure Passed (splitchars : WvStringMask) (raw value : Str) (continued : Bool) : Prop where
  starts : ∃ c s, raw = c :: s ∧ splitchars.set c = false ∧ c ≠ quote
  scan : ∀ t, wordLoop splitchars {} (raw ++ t) =
    prependWord raw (wordLoop splitchars { incontinuation := continued } t)
  reads : wvtclUnescape raw = some value
  more : ∀ z, Extends z → wvtclUnescape (raw ++ z) ≠ some value

theorem Passed.ne_nil {raw value : Str} {continued : Bool}
    (h : Passed splitchars raw value continued) : raw ≠ [] := by
  obtain ⟨c, s, rfl, -⟩ := h.starts
  exact cons_ne_nil c s

section Spelled

variable {cs : Spelling} (hne : cs ≠ [])
  (hstarts : ∀ c ∈ cs.head?, if c.1 then splitchars.set backslash = false else c.2 ≠ quote)
  (hplain : ∀ c ∈ cs, c.1 = false → InWord splitchars c.2)

include hne hstarts hplain

theorem wvtclUnescape_spelled (z : Str) :
    wvtclUnescape (cs.text ++ z) = some (cs.value ++ unescapeLoop false z) := by
  rw [← unescapeLoop_spelling fun c hc he => (hplain c hc he).2.1]
  obtain ⟨⟨escaped, c⟩, cs, rfl⟩ := exists_cons_of_ne_nil hne
  cases escaped with
  | true => exact wvtclUnescape_of_head (by decide) (by decide) _
  | false => exact wvtclUnescape_of_head (hplain _ mem_cons_self rfl).1 (hstarts _ rfl) _

theorem passed_spelled :
    Passed splitchars cs.text cs.value (cs.getLast? == some (true, newline)) := by
  have hreads := wvtclUnescape_spelled hne hstarts hplain
  refine ⟨?_, fun t => ?_, ?_, fun z hz hsame => ?_⟩
  · obtain ⟨⟨escaped, c⟩, cs, rfl⟩ := exists_cons_of_ne_nil hne
    cases escaped with
    | true => exact ⟨backslash, c :: Spelling.text cs, rfl, hstarts _ rfl, by decide⟩
    | false => exact ⟨c, Spelling.text cs, rfl, (hplain _ mem_cons_self rfl).2.2, hstarts _ rfl⟩
  · have hpass := wordLoop_backslashed splitchars cs hplain false t
    rw [if_neg hne] at hpass
    exact hpass
  · have h := hreads []
    rw [append_nil, unescapeLoop, append_nil] at h
    exact h
  · rw [hreads z] at hsame
    apply hz.unescapeLoop_ne_nil
    simpa using hsame

end Spelled

theorem passed_plain {s : Str} (hne : s ≠ []) (hquote : s.head? ≠ some quote)
    (hplain : ∀ c ∈ s, InWord splitchars c) : Passed splitchars s s false := by
  have h : Passed splitchars (Spelling.plain s).text _ _ :=
    passed_spelled (by simpa [Spelling.plain] using hne) ?_ ?_
  · rw [Spelling.plain_text, Spelling.plain_value, Spelling.plain_not_continued] at h
    exact h
  · intro c hc
    rw [Spelling.plain, head?_map] at hc
    obtain ⟨d, hd, rfl⟩ := Option.map_eq_some_iff.mp hc
    exact fun e : d = quote => hquote (e ▸ hd)
  · intro c hc _
    obtain ⟨d, hd, rfl⟩ := mem_map.mp hc
    exact hplain d hd

theorem passed_braced {s : Str} (h : braces false 0 s = true) (hl : splitchars.set lbrace = false) :
    Passed splitchars (lbrace :: s ++ [rbrace]) s false := by
  refine ⟨⟨lbrace, s ++ [rbrace], rfl, hl, by decide⟩, fun t => ?_, wvtclUnescape_braced s, ?_⟩
  · have hpass := wordLoop_braced splitchars h hl t
    simpa using hpass
  · intro z hz
    rw [wvtclUnescape]
    split
    · intro h
      have hlen := congrArg length (Option.some.inj h)
      obtain ⟨f, w, rfl, -⟩ := hz
      simp at hlen
    · have hquote : ¬ ((lbrace :: s ++ [rbrace] ++ z).head? = some quote ∧
          (lbrace :: s ++ [rbrace] ++ z).getLast? = some quote) := by
        rintro ⟨h, -⟩
        exact absurd (Option.some.inj h) (by decide)
      rw [if_neg hquote]
      intro h
      apply unescapeLoop_lbrace_ne s ([rbrace] ++ z)
      simpa using Option.some.inj h

/-- An unquoted element. -/
theorem Written.passed (w : Written splitchars) (hq : w.form.isQuoted = false) :
    Passed splitchars w.form.text w.form.value w.form.continued := by
  obtain ⟨form, fits, starts⟩ := w
  cases form with
  | bare word =>
    refine passed_plain fits.1 ?_ fun c hc => inWord_of_not_nasty splitchars (fits.2 c hc)
    intro h
    exact (not_nasty splitchars (fits.2 quote (mem_of_head? h))).2.2.2.1 rfl
  | braced s => exact passed_braced fits (starts lbrace rfl)
  | backslashed cs =>
    refine passed_spelled fits.1 ?_ fun c hc he => inWord_of_not_nasty splitchars (fits.2 c hc he)
    rintro ⟨escaped, c⟩ hc
    obtain ⟨cs, rfl⟩ := head?_eq_some_iff.mp hc
    cases escaped with
    | true => exact starts backslash rfl
    | false => exact (not_nasty splitchars (fits.2 (false, c) mem_cons_self rfl)).2.2.2.1
  | quoted cs => cases hq

/-! ## The first word of a text -/

variable {lead : Str}

theorem wvtclGetword_scan (doUnescape : Bool) (hlead : ∀ c ∈ lead, splitchars.set c = true)
    {c : Byte} (hc : splitchars.set c = false) (s : Str) :
    wvtclGetword splitchars doUnescape (lead ++ c :: s) =
      let r := wordScan splitchars c s
      if unfinished r.1 r.2.2 then none
      else (if doUnescape then wvtclUnescape r.1 else some r.1).map fun w => (w, r.2.1) := by
  have hdrop : (lead ++ c :: s).dropWhile splitchars.set = c :: s := by
    rw [dropWhile_append_of_pos hlead, dropWhile_cons_of_neg (by simp [hc])]
  rw [wvtclGetword, hdrop]

theorem wvtclGetword_quoted (hlead : ∀ c ∈ lead, splitchars.set c = true) (w : Written splitchars)
    (hq : w.form.isQuoted = true) (t : Str) :
    wvtclGetword splitchars true (lead ++ (w.form.text ++ t)) = none := by
  obtain ⟨c, s, htext, hc, hquote, -⟩ := w.text_cons
  have hscan : (wordScan splitchars c (s ++ t)).2.2.inquote = true := by
    rw [wordScan, if_pos (hquote hq)]
    exact wordLoop_inquote splitchars _ _
  rw [htext, cons_append, wvtclGetword_scan true hlead hc]
  rw [if_pos]
  simp [unfinished, hscan]

section Passed

variable {raw value : Str} {continued : Bool} (h : Passed splitchars raw value continued)

include h

theorem Passed.getword (hlead : ∀ c ∈ lead, splitchars.set c = true) (t : Str) :
    wvtclGetword splitchars true (lead ++ (raw ++ t)) =
      let r := wordLoop splitchars { incontinuation := continued } t
      if unfinished (raw ++ r.1) r.2.2 then none
      else (wvtclUnescape (raw ++ r.1)).map fun v => (v, r.2.1) := by
  have hpass := h.scan t
  obtain ⟨c, s, rfl, hc, hquote⟩ := h.starts
  rw [cons_append] at hpass ⊢
  rw [wvtclGetword_scan true hlead hc, wordScan, if_neg hquote, hpass]
  rfl

theorem Passed.getword_item (hlead : ∀ c ∈ lead, splitchars.set c = true) {f : Byte}
    (hf : splitchars.set f = true) (hb : f ≠ backslash) (t : Str) :
    wvtclGetword splitchars true (lead ++ (raw ++ f :: t)) = some (value, f :: t) := by
  rw [h.getword hlead, wordLoop_incontinuation, wordLoop_split splitchars hf hb]
  simp [unfinished, h.reads, h.ne_nil]

theorem Passed.getword_last (hlead : ∀ c ∈ lead, splitchars.set c = true) :
    wvtclGetword splitchars true (lead ++ raw) =
      if continued then none else some (value, []) := by
  rw [← append_nil raw, h.getword hlead]
  cases continued <;> simp [wordLoop, unfinished, h.reads, h.ne_nil]

theorem Passed.getword_runs_on (hlead : ∀ c ∈ lead, splitchars.set c = true) {f : Byte}
    (hf : splitchars.set f = true → f = backslash) (t : Str) {v rest : Str}
    (hv : wvtclGetword splitchars true (lead ++ (raw ++ f :: t)) = some (v, rest)) : v ≠ value := by
  rw [h.getword hlead, wordLoop_incontinuation] at hv
  dsimp only at hv
  split at hv
  · cases hv
  · rename_i hfinished
    obtain ⟨v', hread, heq⟩ := Option.map_eq_some_iff.mp hv
    obtain ⟨rfl, -⟩ := Prod.mk.inj heq
    have hextends : Extends (wordLoop splitchars {} (f :: t)).1 := by
      by_cases hb : f = backslash
      · rw [hb]
        refine ⟨backslash, (wordLoop splitchars { inescape := true } t).1, rfl, fun _ => ?_⟩
        cases t with
        | nil =>
          rw [hb] at hfinished
          simp [wordLoop, prependWord, unfinished] at hfinished
        | cons c t => exact cons_ne_nil _ _
      · have hsplit : splitchars.set f = false := by
          by_contra hset
          exact hb (hf (by simpa using hset))
        rw [wordLoop, if_neg Bool.false_ne_true, if_neg hb, if_neg (by simp),
          if_neg (by simp [hsplit])]
        exact ⟨f, _, rfl, fun e => absurd e hb⟩
    intro hsame
    exact h.more _ hextends (hsame ▸ hread)

end Passed

end Words

/-! ## Lists -/

theorem wvtclDecode_of_none {splitchars : WvStringMask} {doUnescape : Bool} {s : Str}
    (h : wvtclGetword splitchars doUnescape s = none) :
    wvtclDecode splitchars doUnescape s = [] := by
  rw [wvtclDecode]
  split
  · rfl
  · rename_i h'
    rw [h] at h'
    cases h'

theorem wvtclDecode_of_some {splitchars : WvStringMask} {doUnescape : Bool} {s word rest : Str}
    (h : wvtclGetword splitchars doUnescape s = some (word, rest)) :
    wvtclDecode splitchars doUnescape s = word :: wvtclDecode splitchars doUnescape rest := by
  rw [wvtclDecode]
  split
  · rename_i h'
    rw [h] at h'
    cases h'
  · rename_i h'
    rw [h] at h'
    cases h'
    rfl

namespace Listing

variable {splitchars : WvStringMask}

/-- No element is quoted, no separator after an element begins with a backslash, and the text
does not end in an element that ends in a newline written with a backslash. -/
structure Readable (last : Option (Written splitchars))
    (items : List (Written splitchars × Separator splitchars)) : Prop where
  items : ∀ i ∈ items, i.1.form.isQuoted = false ∧ i.2.first ≠ backslash
  last : ∀ w ∈ last, w.form.isQuoted = false ∧ w.form.continued = false

theorem readable_nil {last : Option (Written splitchars)} :
    Readable last [] ↔ ∀ w ∈ last, w.form.isQuoted = false ∧ w.form.continued = false :=
  ⟨fun h => h.last, fun h => ⟨by simp, h⟩⟩

theorem readable_cons {last : Option (Written splitchars)}
    {i : Written splitchars × Separator splitchars}
    {items : List (Written splitchars × Separator splitchars)} :
    Readable last (i :: items) ↔
      (i.1.form.isQuoted = false ∧ i.2.first ≠ backslash) ∧ Readable last items := by
  constructor
  · intro h
    obtain ⟨hi, hitems⟩ := forall_mem_cons.mp h.items
    exact ⟨hi, hitems, h.last⟩
  · rintro ⟨hi, hitems⟩
    exact ⟨forall_mem_cons.mpr ⟨hi, hitems.items⟩, hitems.last⟩

theorem decode_textOf_iff {lead : Str} (hlead : ∀ c ∈ lead, splitchars.set c = true)
    (last : Option (Written splitchars))
    (items : List (Written splitchars × Separator splitchars)) :
    wvtclDecode splitchars true (lead ++ textOf last items) = valuesOf last items ↔
      Readable last items := by
  induction items generalizing lead with
  | nil =>
    rw [readable_nil]
    cases last with
    | none =>
      have hnone : wvtclGetword splitchars true (lead ++ []) = none := by
        rw [append_nil, wvtclGetword, dropWhile_eq_nil_iff.mpr hlead]
      refine iff_of_true ?_ (by simp)
      exact wvtclDecode_of_none hnone
    | some w =>
      have htext : textOf (some w) [] = w.form.text := rfl
      have hvalues : valuesOf (some w) [] = [w.form.value] := rfl
      rw [htext, hvalues]
      cases hq : w.form.isQuoted with
      | true =>
        rw [← append_nil w.form.text, wvtclDecode_of_none (wvtclGetword_quoted hlead w hq [])]
        simp [hq]
      | false =>
        have hword := (w.passed hq).getword_last hlead
        cases hcont : w.form.continued with
        | true =>
          rw [hcont, if_pos rfl] at hword
          rw [wvtclDecode_of_none hword]
          simp [hcont]
        | false =>
          rw [hcont, if_neg Bool.false_ne_true] at hword
          have hend : wvtclGetword splitchars true [] = none := rfl
          rw [wvtclDecode_of_some hword, wvtclDecode_of_none hend]
          simp [hq, hcont]
  | cons i items ih =>
    obtain ⟨w, sep⟩ := i
    rw [readable_cons]
    have htext : textOf last ((w, sep) :: items) =
        w.form.text ++ sep.first :: (sep.more ++ textOf last items) := rfl
    have hvalues : valuesOf last ((w, sep) :: items) = w.form.value :: valuesOf last items := rfl
    rw [htext, hvalues]
    cases hq : w.form.isQuoted with
    | true =>
      rw [wvtclDecode_of_none (wvtclGetword_quoted hlead w hq _)]
      simp
    | false =>
      by_cases hb : sep.first = backslash
      · refine iff_of_false ?_ (fun h => h.1.2 hb)
        intro hsame
        cases hword : wvtclGetword splitchars true
            (lead ++ (w.form.text ++ sep.first :: (sep.more ++ textOf last items))) with
        | none =>
          rw [wvtclDecode_of_none hword] at hsame
          cases hsame
        | some r =>
          obtain ⟨v, rest⟩ := r
          rw [wvtclDecode_of_some hword] at hsame
          exact (w.passed hq).getword_runs_on hlead (fun _ => hb) _ hword (cons.inj hsame).1
      · have hfirst := sep.split sep.first mem_cons_self
        have hrest := ih sep.split
        rw [wvtclDecode_of_some ((w.passed hq).getword_item hlead hfirst hb _), cons.injEq,
          ← cons_append, hrest]
        simp [hb]

/-- A text that is put together from elements in their documented forms is decoded to these
elements exactly if none is quoted, no separator begins with a backslash and no line
continuation is open at the end. -/
theorem decode_written_iff (l : Listing splitchars) :
    wvtclDecode splitchars true l.text = l.values ↔ Readable l.last l.items :=
  decode_textOf_iff l.split l.last l.items

/-- `"a"` is decoded to no element at all. -/
theorem decode_written_fails :
    let l : Listing wvtclNastySpaces :=
      ⟨[], by simp, [], some ⟨.quoted [(false, 97)], by simp only [Form.Fits]; decide, by decide⟩⟩
    l.text = [34, 97, 34] ∧ l.values = [[97]] ∧ wvtclDecode wvtclNastySpaces true l.text = [] :=
  ⟨rfl, rfl, wvtclDecode_of_none (by decide)⟩

end Listing

end WvStreams
